import ModuleGraph.Source.Parser.Basic

set_option autoImplicit false

/-! # Types

The types of typed sources. Nothing of a type is kept, so these parsers only decide whether
what stands there is a type. Lists of parameters occur in types as well as in functions and
are parsed here too (`parameters`).
-/

namespace ModuleGraph.Source.Parser

def withConditionalTypes {α : Type} (allowed : Bool) (p : Parser α) : Parser α :=
  within (fun c => { c with conditionalTypes := allowed }) p

def withIn {α : Type} (allowed : Bool) (p : Parser α) : Parser α :=
  within (fun c => { c with inOperator := allowed }) p

/-- Reads `<<` as an opening angle followed by another one. -/
def splitLeftAngle : Parser Unit := do
  if ← isAt "<<" then
    reread fun newline cs =>
      match cs with
      | '<' :: rest => some (⟨.punct, "<", newline, false, false, cs⟩, rest)
      | _ => none

/-! ## Property names -/

/-- The name of a member: a word, a string, a number, or an expression in brackets. The
answer is the name unless it is computed. -/
def propertyName (rules : Rules) : Parser (Option String) := do
  let t ← token
  match t.kind with
  | .name | .string =>
    advance
    return some t.text
  | .number | .bigint =>
    advance
    return some "0"
  | _ =>
    expect "["
    let _ ← withIn true (rules (.assignment true))
    expect "]"
    return none

def isPropertyName (t : Token) : Bool :=
  t.kind == .name || t.kind == .string || t.kind == .number || t.kind == .bigint ||
    t.kind == .privateName || t.isPunct "["

/-! ## Arguments and parameters of types -/

/-- A list of types in angles, not empty. -/
def typeArguments (rules : Rules) : Parser Unit := do
  splitLeftAngle
  expect "<"
  let (args, _) ← commaList ">" (withConditionalTypes true (rules .type))
  require (!args.isEmpty)

/-- A list of types in angles, if one starts on this line. -/
def typeArguments? (rules : Rules) : Parser Unit := do
  let t ← token
  if t.isPunctOf ["<", "<<"] && !t.newline then typeArguments rules

/-- A type after a colon, if there is one. -/
def typeAnnotation? (rules : Rules) : Parser Unit := do
  if ← isTyped then
    if ← eat ":" then rules .type

/-- The words that may stand before the name of a type parameter. -/
def typeParameterWords : List String := ["const", "in", "out"]

def typeParameter (rules : Rules) : Parser Unit := do
  loop () fun _ => do
    let t ← token
    if t.isWordOf typeParameterWords && (← nextIs fun n => n.kind == .name && n.text != "extends")
    then
      advance
      return .inl ()
    else return .inr ()
  let _ ← identifier
  if ← eatWord "extends" then rules .type
  if ← eat "=" then rules .type

def typeParameters? (rules : Rules) : Parser Bool := do
  if (← isTyped) && (← isAt "<") then
    advance
    let (params, _) ← commaList ">" (withConditionalTypes true (typeParameter rules))
    require (!params.isEmpty)
    return true
  else return false

/-! ## Parameters -/

/-- The words that turn a parameter into a member. -/
def parameterWords : List String := ["public", "private", "protected", "readonly", "override"]

/-- What is known of a parameter: its pattern, and whether it takes all that is left. -/
structure Parameter where
  pattern : Pattern
  isRest : Bool
deriving Repr, Inhabited

def decorator (rules : Rules) : Parser Unit := do
  expect "@"
  let _ ← within (fun c => { c with decorator := true }) (rules .leftHand)

/-- Decorators, as many as there are; the answer tells whether there are any. -/
def decorators (rules : Rules) : Parser Bool :=
  loop false fun any => do
    if ← isAt "@" then
      decorator rules
      return .inl true
    else return .inr any

/-- Words before a parameter that turn it into a member. -/
def skipParameterWords : Parser Unit :=
  loop () fun _ => do
    let t ← token
    let follows (n : Token) : Bool :=
      !n.newline && (n.kind == .name || n.isPunctOf ["[", "\x7b", "..."])
    if (← isTyped) && t.isWordOf parameterWords && (← nextIs follows) then
      takeWord
      return .inl ()
    else return .inr ()

def parameter (rules : Rules) : Parser Parameter := do
  let _ ← decorators rules
  skipParameterWords
  if ← eat "..." then
    let pattern ← rules .pattern
    if ← isTyped then
      let _ ← eat "?"
    typeAnnotation? rules
    require (← isAt ")")
    return ⟨pattern, true⟩
  let pattern ← if (← isTyped) && (← isAtWord "this") then
      advance
      pure (Pattern.name "this")
    else rules .pattern
  if ← isTyped then
    let _ ← eat "?"
  typeAnnotation? rules
  if ← eat "=" then
    let value ← withIn true (rules (.assignment true))
    return ⟨.withDefault pattern value, false⟩
  return ⟨pattern, false⟩

def parameters (rules : Rules) : Parser (List Parameter) := do
  expect "("
  let (params, _) ← commaList ")" (parameter rules)
  return params

/-! ## Types -/

/-- A result type, or the statement that a parameter has a type. -/
def resultType (rules : Rules) : Parser Unit := do
  let t ← token
  let subject (n : Token) : Bool := !n.newline && n.kind == .name
  -- `asserts x`, perhaps with a type for `x`.
  if t.isWord "asserts" && (← nextIs fun n => subject n && n.text != "is") then
    advance
    advance
    if (← isAtWord "is") && !(← token).newline then
      advance
      rules .type
  else if t.kind == .name && (← nextIs fun n => !n.newline && n.isWord "is") then
    advance
    advance
    rules .type
  else rules .type

/-- A result type after a colon, if there is one. -/
def resultAnnotation? (rules : Rules) : Parser Bool := do
  if (← isTyped) && (← isAt ":") then
    advance
    resultType rules
    return true
  else return false

/-- A name with members, as in `a.b.c`. -/
def qualifiedName (first : Parser Unit) : Parser Unit := do
  first
  loop () fun _ => do
    if ← eat "." then
      let t ← token
      require (t.kind == .name || t.kind == .privateName)
      advance
      return .inl ()
    else return .inr ()

/-- A type that is named; every word can be such a name. -/
def typeReference (rules : Rules) : Parser Unit := do
  qualifiedName do
    let _ ← anyName
  typeArguments? rules

/-- The type of another module, after `import`. -/
def importType (rules : Rules) : Parser Unit := do
  expectWord "import"
  expect "("
  rules .type
  if ← eat "," then
    if !(← isAt ")") then
      let _ ← rules (.assignment true)
      let _ ← eat ","
  expect ")"
  loop () fun _ => do
    if ← eat "." then
      let _ ← anyName
      return .inl ()
    else return .inr ()
  typeArguments? rules

def startsType (t : Token) : Bool :=
  match t.kind with
  | .name =>
    t.isIdentifier ||
      t.isWordOf ["void", "null", "this", "typeof", "true", "false", "new", "import", "function"]
  | .string | .number | .bigint | .templateOpen | .templateEnd => true
  | .punct => t.isPunctOf ["\x7b", "[", "(", "<", "<<", "|", "&", "-", "*", "?", "!", "..."]
  | _ => false

/-- Whether the parenthesis here opens the parameters of a function type. -/
def opensFunctionType (rules : Rules) : Parser Bool :=
  sees do
    expect "("
    if ← isAtOneOf [")", "..."] then return true
    skipParameterWords
    let t ← token
    if t.isIdentifier || t.isWord "this" then advance
    else if t.isPunctOf ["[", "\x7b"] then
      let _ ← rules .pattern
    else return false
    if ← isAtOneOf [":", ",", "?", "="] then return true
    if ← eat ")" then isAt "=>" else return false

/-- The type of a function, from its type parameters on. -/
def functionType (rules : Rules) : Parser Unit := do
  let _ ← typeParameters? rules
  let _ ← parameters rules
  expect "=>"
  resultType rules

/-- A member of a mapped type may be marked by a word or a sign with a sign before it. -/
def mappedType (rules : Rules) : Parser Unit := do
  expect "\x7b"
  if ← isAtOneOf ["+", "-"] then advance
  let _ ← eatWord "readonly"
  expect "["
  let _ ← anyName
  expectWord "in"
  rules .type
  if ← eatWord "as" then rules .type
  expect "]"
  if ← isAtOneOf ["+", "-"] then advance
  let _ ← eat "?"
  if ← eat ":" then rules .type
  if !(← eat ";") then
    let _ ← eat ","
  expect "\x7d"

def opensMappedType : Parser Bool :=
  sees do
    expect "\x7b"
    if ← isAtOneOf ["+", "-"] then
      advance
      isAtWord "readonly"
    else
      let _ ← eatWord "readonly"
      if ← eat "[" then
        require ((← token).isIdentifier)
        advance
        isAtWord "in"
      else return false

def opensIndexSignature : Parser Bool :=
  sees do
    expect "["
    require ((← token).isIdentifier)
    advance
    isAt ":"

/-- An index signature, as in `[key: string]: number`. -/
def indexSignature (rules : Rules) : Parser Unit := do
  expect "["
  let _ ← parameter rules
  let _ ← eat ","
  expect "]"
  typeAnnotation? rules

def signature (rules : Rules) : Parser Unit := do
  let _ ← typeParameters? rules
  let _ ← parameters rules
  let _ ← resultAnnotation? rules

/-- A member of an interface or of an object type. -/
def typeMember (rules : Rules) : Parser Unit := do
  let t ← token
  if t.isPunctOf ["(", "<"] then signature rules
  else if t.isWord "new" && (← nextIs (·.isPunctOf ["(", "<"])) then
    advance
    signature rules
  else
    -- Words before the name, unless they are the name.
    loop () fun _ => do
      let t ← token
      if t.isWordOf ["readonly", "public", "private", "protected", "static"] &&
          (← nextIs fun n => !n.newline && isPropertyName n) then
        advance
        return .inl ()
      else return .inr ()
    if ← opensIndexSignature then indexSignature rules
    else
      let t ← token
      if t.isWordOf ["get", "set"] && (← nextIs isPropertyName) then
        advance
        let _ ← propertyName rules
        signature rules
      else
        require (isPropertyName t && t.kind != .privateName)
        let _ ← propertyName rules
        let _ ← eat "?"
        if ← isAtOneOf ["(", "<"] then signature rules else typeAnnotation? rules
  if !(← eat ";") then
    let _ ← eat ","

def typeMembers (rules : Rules) : Parser Unit := do
  expect "\x7b"
  loop () fun _ => do
    if ← eat "\x7d" then return .inr ()
    typeMember rules
    return .inl ()

/-- Whether an item of a tuple has a name. -/
def isNamedItem : Parser Bool :=
  sees do
    require (← isAtKind .name)
    advance
    if ← isAt ":" then return true
    expect "?"
    isAt ":"

/-- An item of a tuple type. -/
def tupleItem (rules : Rules) : Parser Unit := do
  let _ ← eat "..."
  if ← isNamedItem then
    advance
    let _ ← eat "?"
    expect ":"
  rules .type

def templateType (rules : Rules) : Parser Unit := do
  loop () fun _ => do
    let t ← token
    require (!t.flawed)
    if t.kind == .templateEnd then
      advance
      return .inr ()
    advance
    rules .type
    require (← isAt "\x7d")
    moveTo (readTemplate false)
    return .inl ()

/-- A type without any operator. -/
def simpleType (rules : Rules) : Parser Unit := do
  let t ← token
  match t.kind with
  | .string | .number | .bigint => advance
  | .templateOpen | .templateEnd => templateType rules
  | .punct =>
    if t.isPunct "\x7b" then
      if ← opensMappedType then mappedType rules else typeMembers rules
    else if t.isPunct "[" then
      advance
      let _ ← commaList "]" (tupleItem rules)
    else if t.isPunct "(" then
      advance
      withConditionalTypes true (rules .type)
      expect ")"
    else if t.isPunct "-" then
      advance
      let n ← token
      require (n.kind == .number || n.kind == .bigint)
      advance
    else if t.isPunctOf ["*", "?", "!"] then
      advance
      if startsType (← token) then rules .typeOperand
    else reject
  | .name =>
    if t.isWordOf ["true", "false", "this"] then advance
    else if t.isWord "typeof" then
      advance
      if ← isAtWord "import" then importType rules
      else
        qualifiedName do
          let _ ← anyName
        typeArguments? rules
    else if t.isWord "import" then importType rules
    else typeReference rules
  | _ => reject

/-- A type with what may follow it directly: brackets and marks. -/
def postfixType (rules : Rules) : Parser Unit := do
  simpleType rules
  loop () fun _ => do
    let t ← token
    if t.newline then return .inr ()
    if t.isPunct "[" then
      advance
      if !(← isAt "]") then withConditionalTypes true (rules .type)
      expect "]"
      return .inl ()
    else if t.isPunct "!" then
      advance
      return .inl ()
    else if t.isPunct "?" && !(← nextIs startsType) then
      advance
      return .inl ()
    else return .inr ()

/-- A type with the words that may stand before it. -/
def typeOperand (rules : Rules) : Parser Unit := do
  let t ← token
  if t.isWordOf ["keyof", "unique", "readonly"] then
    advance
    rules .typeOperand
  else if t.isWord "infer" then
    advance
    let _ ← identifier
    -- A bound is part of the inferred type unless it turns out to be a condition.
    let _ ← attempt do
      expectWord "extends"
      withConditionalTypes false (rules .type)
      if (← read).conditionalTypes then require (!(← isAt "?"))
  else withConditionalTypes true (postfixType rules)

/-- Types joined by an operator, which may also stand before the first one. -/
def joinedTypes (operator : String) (operand : Parser Unit) : Parser Unit := do
  let _ ← eat operator
  operand
  loop () fun _ => do
    if ← eat operator then
      operand
      return .inl ()
    else return .inr ()

def type (rules : Rules) : Parser Unit := do
  let t ← token
  if t.isPunct "<" || (t.isPunct "(" && (← opensFunctionType rules)) then functionType rules
  else if t.isWord "new" || (t.isWord "abstract" && (← nextIs (·.isWord "new"))) then
    let _ ← eatWord "abstract"
    advance
    functionType rules
  else
    joinedTypes "|" (joinedTypes "&" (rules .typeOperand))
    let t ← token
    if (← read).conditionalTypes && !t.newline && t.isWord "extends" then
      takeWord
      withConditionalTypes false (rules .type)
      expect "?"
      withConditionalTypes true (rules .type)
      expect ":"
      withConditionalTypes true (rules .type)

end ModuleGraph.Source.Parser
