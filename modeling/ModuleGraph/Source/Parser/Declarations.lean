import ModuleGraph.Source.Parser.Classes

set_option autoImplicit false

/-! # Declarations

Variables, functions and classes, and the declarations that only typed sources have:
interfaces, type aliases, enumerations, namespaces and names for other modules.
-/

namespace ModuleGraph.Source.Parser

/-! ## Variables -/

/-- Where variables are declared: in a statement, or in the head of a loop. -/
inductive VariablePlace where
  | statement
  | loopHead
deriving DecidableEq, Repr, Inhabited

/-- A declared variable: its pattern, and whether it has a value. -/
structure Declarator where
  pattern : Pattern
  hasValue : Bool
deriving Repr, Inhabited

/-- Whether a variable has the value that it needs: constants and structures need one,
unless they exist elsewhere. -/
def Declarator.isComplete (isConst ambient : Bool) (d : Declarator) : Bool :=
  d.hasValue || ambient || !(isConst || d.pattern.isStructure)

def declarator (rules : Rules) : Parser Declarator := do
  let pattern ← rules .pattern
  if ← isTyped then
    if !pattern.isStructure && !(← token).newline then
      let _ ← eat "!"
    typeAnnotation? rules
  if ← eat "=" then
    let _ ← rules (.assignment true)
    return ⟨pattern, true⟩
  return ⟨pattern, false⟩

/-- Variables after the word that declares them. In the head of a loop it is not yet known
whether they need values. -/
def bindings (rules : Rules) (isConst : Bool) (place : VariablePlace) :
    Parser (List Declarator) := do
  let ds ← commaSeparated (declarator rules)
  if place == .statement then
    let ambient := (← read).ambient
    require (ds.all (·.isComplete isConst ambient))
    endStatement
  return ds

def variableDeclaration (rules : Rules) (isConst : Bool) : Parser DeclarationKind := do
  let ds ← bindings rules isConst .statement
  return .bindings (ds.map (·.pattern))

/-! ## Typed declarations -/

def interfaceDeclaration (rules : Rules) : Parser DeclarationKind := do
  expectWord "interface"
  let name ← identifier
  let _ ← typeParameters? rules
  if ← eatWord "extends" then
    let _ ← commaSeparated (typeReference rules)
  typeMembers rules
  return .interface name

def typeAliasDeclaration (rules : Rules) : Parser DeclarationKind := do
  expectWord "type"
  let name ← identifier
  let _ ← typeParameters? rules
  expect "="
  rules .type
  endStatement
  return .typeAlias name

/-- The name of a member of an enumeration: a word or a string, perhaps in brackets. -/
def enumMemberName : Parser Unit := do
  let t ← token
  if t.kind == .name || t.kind == .string then advance
  else
    expect "["
    let inner ← token
    require (inner.kind == .string || inner.kind == .templateEnd)
    advance
    expect "]"

def enumDeclaration (rules : Rules) : Parser DeclarationKind := do
  expectWord "enum"
  let name ← identifier
  expect "\x7b"
  let _ ← commaList "\x7d" do
    enumMemberName
    if ← eat "=" then
      let _ ← rules (.assignment true)
  return .enumeration name

/-- The statements of a namespace, in braces. -/
def namespaceBody (rules : Rules) : Parser Unit := do
  expect "\x7b"
  let _ ← statementsToBrace rules

/-- A namespace from its word on. A module that is named by a string may have no body. -/
def namespaceDeclaration (rules : Rules) : Parser DeclarationKind := do
  if ← eatWord "global" then namespaceBody rules
  else
    takeWord
    if ← isAtKind .string then
      advance
      if ← isAt "\x7b" then namespaceBody rules else endStatement
    else
      let _ ← identifier
      loop () fun _ => do
        if ← eat "." then
          let _ ← anyName
          return .inl ()
        else return .inr ()
      namespaceBody rules
  return .scope

/-- What a name for another module stands for, after the equals sign. -/
def importAliasRest (name : String) : Parser DeclarationKind := do
  if (← isAtWord "require") && (← nextIs (·.isPunct "(")) then
    advance
    expect "("
    let _ ← stringValue
    expect ")"
  else
    qualifiedName do
      let _ ← identifier
  endStatement
  return .importAlias name

/-! ## Any declaration -/

/-- Words that may stand before a declaration in typed sources. -/
def declarationWords : List String :=
  ["declare", "abstract", "async", "private", "protected", "public", "readonly", "accessor",
   "static"]

/-- Whether a declaration starts here in a typed source, where its words may also be names. -/
def startsTypedDeclaration : Parser Bool :=
  sees <| loop () fun _ => do
    let t ← token
    let sameLine (test : Token → Bool) : Parser Bool := nextIs fun n => !n.newline && test n
    if t.isWordOf ["var", "let", "const", "function", "class", "enum"] then return .inr true
    else if t.isWordOf ["interface", "type"] then
      return .inr (← sameLine (·.isIdentifier))
    else if t.isWordOf ["module", "namespace"] then
      return .inr (← sameLine fun n => n.isIdentifier || n.kind == .string)
    else if t.isWord "global" then
      return .inr (← nextIs fun n => n.isPunct "\x7b")
    else if t.isWord "import" then
      return .inr (← nextIs fun n => n.kind == .name || n.kind == .string)
    else if t.isWordOf declarationWords then
      advance
      if (← token).newline then return .inr false
      return .inl ()
    else return .inr false

/-- What the words before a declaration say. -/
structure Modifiers where
  ambient : Bool := false
  isAbstract : Bool := false
deriving DecidableEq, Repr, Inhabited

def declarationModifiers : Parser Modifiers :=
  loop ({} : Modifiers) fun m => do
    let follows ← nextIs fun n => !n.newline && n.kind == .name
    if follows && (← isAtWord "declare") then
      takeWord
      return .inl { m with ambient := true }
    else if follows && (← isAtWord "abstract") then
      takeWord
      return .inl { m with isAbstract := true }
    else return .inr m

def classDeclaration (rules : Rules) (isAbstract : Bool) : Parser DeclarationKind := do
  return .class (← classRest rules) isAbstract

def functionAsDeclaration (rules : Rules) : Parser DeclarationKind := do
  let isAsync ← eatWord "async"
  require (!(isAsync && (← token).newline))
  let (name, hasBody) ← functionDeclaration rules isAsync true .list
  return .function name hasBody

/-- A declaration that follows the words before it. -/
def declarationKind (rules : Rules) (isAbstract : Bool) : Parser DeclarationKind := do
  let t ← token
  if isAbstract then
    require (t.isWord "class")
    classDeclaration rules true
  else if t.isWord "class" then classDeclaration rules false
  else if t.isWordOf ["function", "async"] then functionAsDeclaration rules
  else if t.isWord "const" && (← isTyped) && (← nextIs (·.isWord "enum")) then
    takeWord
    enumDeclaration rules
  else if t.isWordOf ["var", "let", "const"] then
    takeWord
    variableDeclaration rules (t.text == "const")
  else
    require (← isTyped)
    if t.isWord "interface" then interfaceDeclaration rules
    else if t.isWord "type" then typeAliasDeclaration rules
    else if t.isWord "enum" then enumDeclaration rules
    else if t.isWordOf ["namespace", "module", "global"] then namespaceDeclaration rules
    else if t.isWord "import" then
      takeWord
      if (← isAtWord "type") && (← nextIs (·.kind == .name)) then takeWord
      let name ← identifier
      expect "="
      importAliasRest name
    else reject

/-- A declaration with the words before it. -/
def anyDeclaration (rules : Rules) : Parser Declaration := do
  let m ← if ← isTyped then declarationModifiers else pure {}
  let inside (c : Context) : Context := { c with ambient := c.ambient || m.ambient }
  let kind ← within inside (declarationKind rules m.isAbstract)
  return ⟨kind, m.ambient⟩

end ModuleGraph.Source.Parser
