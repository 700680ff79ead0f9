import ModuleGraph.Source.Parser.Declarations

set_option autoImplicit false

/-! # Imports and exports

The statements that tie modules together. The word `type` before an item or a whole list
marks what is used for its type only; it may also be a name, and what follows decides.
-/

namespace ModuleGraph.Source.Parser

/-! ## Names of exports -/

/-- A name under which a module exports: a word, or a string of whole characters. -/
structure ExportName where
  text : String
  isString : Bool
deriving DecidableEq, Repr, Inhabited

def exportName : Parser ExportName := do
  let t ← token
  if t.kind == .string then
    require (!t.flawed)
    advance
    return ⟨t.text, true⟩
  else return ⟨← anyName, false⟩

def atExportName : Parser Bool := do
  let t ← token
  return t.kind == .name || t.kind == .string

/-- An item of an import or export list: the name before `as`, if there is one, the name
after it, and whether only the type counts. -/
structure ListItem where
  source : Option ExportName
  target : ExportName
  typeOnly : Bool
deriving Repr, Inhabited

def listItemRest (first : ExportName) (typeOnly : Bool) : Parser ListItem := do
  if ← eatWord "as" then return ⟨some first, ← exportName, typeOnly⟩
  else return ⟨none, first, typeOnly⟩

/-- An item whose first word is `type`, which has been moved over. Up to three `as` may
follow, of which some are names. -/
def typeListItem (first : ExportName) : Parser ListItem := do
  let asName : ExportName := ⟨"as", false⟩
  if ← isAtWord "as" then
    advance
    if ← isAtWord "as" then
      advance
      if ← atExportName then return ⟨some asName, ← exportName, true⟩
      else return ⟨some first, asName, false⟩
    else if ← atExportName then return ⟨some first, ← exportName, false⟩
    else return ⟨none, asName, true⟩
  else if ← atExportName then
    let name ← exportName
    listItemRest name true
  else return ⟨none, first, false⟩

def listItem : Parser ListItem := do
  let t ← token
  let first ← exportName
  if (← isTyped) && t.isWord "type" && !t.escaped then typeListItem first
  else listItemRest first false

/-! ## Sources and attributes -/

/-- The attributes of an import; no key may be repeated. -/
def attributes? : Parser Unit := do
  let t ← token
  if t.isWord "with" || (t.isWord "assert" && !t.newline) then
    takeWord
    expect "\x7b"
    let (keys, _) ← commaList "\x7d" do
      let key ← exportName
      expect ":"
      let _ ← stringValue
      return key.text
    require (keys.eraseDups.length == keys.length)

/-- The module that is named after `from`. -/
def fromSource : Parser String := do
  expectWord "from"
  let source ← stringValue
  attributes?
  return source

/-! ## Imports -/

/-- Whether a name can be bound by an import. -/
def requireBinding (name : ExportName) : Parser Unit := do
  require (!name.isString && !(← isTaken name.text))

def importItem (typeOnly : Bool) : Parser ImportItem := do
  let item ← listItem
  requireBinding item.target
  require (!(typeOnly && item.typeOnly))
  return .named (item.source.getD item.target).text item.typeOnly

def importList (typeOnly : Bool) : Parser (List ImportItem) := do
  expect "\x7b"
  return (← commaList "\x7d" (importItem typeOnly)).1

/-- A list in braces, or the module as a whole. -/
def importTail (typeOnly : Bool) : Parser (List ImportItem) := do
  if ← eat "*" then
    expectWord "as"
    let _ ← identifier
    return [.all]
  else importList typeOnly

/-- Whether the word `type` after `import` says that only types are imported. -/
def isTypeImport : Parser Bool := do
  if (← isTyped) && (← isAtWord "type") then
    sees do
      advance
      let t ← token
      if t.isPunctOf ["\x7b", "*"] then return true
      if t.isWord "from" then
        advance
        let n ← token
        return n.isWord "from" || n.isPunct "="
      return t.isIdentifier
  else return false

/-- Moves over a word that says when the imported module runs. -/
def skipPhase : Parser Unit := do
  if (← isAtWord "defer") && (← nextIs (·.isPunct "*")) then takeWord
  else if ← isAtWord "source" then
    let isPhase ← sees do
      advance
      let t ← token
      if t.isWord "from" then
        advance
        isAtWord "from"
      else return t.isIdentifier
    if isPhase then takeWord

/-- An import after its word. In typed sources it may also be a name for a module. -/
def importRest : Parser Statement := do
  if ← isAtKind .string then
    let source ← stringValue
    attributes?
    endStatement
    return .importing ⟨source, false, none⟩
  let typeOnly ← isTypeImport
  if typeOnly then takeWord else skipPhase
  let items ← if ← isAtOneOf ["\x7b", "*"] then importTail typeOnly
    else
      let name ← identifier
      if (← isTyped) && (← eat "=") then
        return .declaration ⟨← importAliasRest name, false⟩
      if ← eat "," then
        let more ← importTail typeOnly
        pure (.default :: more)
      else pure [.default]
  let source ← fromSource
  endStatement
  return .importing ⟨source, typeOnly, some items⟩

/-! ## Exports -/

/-- Whether a name can be exported without a source: it refers to something in the module,
so it is neither a string nor a reserved word. -/
def isReference (name : ExportName) : Bool :=
  !name.isString && !isReserved name.text && !futureWords.contains name.text &&
    name.text != "await" && name.text != "yield"

/-- A list of exports, in braces, with its source if it has one. -/
def exportList (typeOnly : Bool) : Parser Statement := do
  expect "\x7b"
  let (items, _) ← commaList "\x7d" do
    let item ← listItem
    require (!(typeOnly && item.typeOnly))
    return item
  let source ← if ← isAtWord "from" then pure (some (← fromSource)) else pure none
  endStatement
  let exported := items.map fun item =>
    (⟨(item.source.getD item.target).text, item.target.text, item.typeOnly⟩ : ExportItem)
  if source.isNone then require (items.all fun item => isReference (item.source.getD item.target))
  return .exportItems exported source typeOnly

def exportAllRest (typeOnly : Bool) : Parser Statement := do
  let name ← if ← eatWord "as" then pure (some (← exportName).text) else pure none
  let source ← fromSource
  endStatement
  return .exportAll source name typeOnly

def exportDefaultRest (rules : Rules) (decorated : Bool) : Parser Statement := do
  let t ← token
  if t.isWord "class" || t.isPunct "@" then
    let _ ← decorators rules
    if (← isTyped) && (← isAtWord "abstract") then takeWord
    let _ ← classRest rules
    return .exportDefault .classDefinition
  if (← isTyped) && t.isWord "abstract" && (← nextIs fun n => !n.newline && n.isWord "class") then
    takeWord
    let _ ← classRest rules
    return .exportDefault .classDefinition
  require (!decorated)
  if t.isWord "function" ||
      (t.isWord "async" && (← nextIs fun n => !n.newline && n.isWord "function")) then
    let isAsync ← eatWord "async"
    let _ ← functionDeclaration rules isAsync false .list
    return .exportDefault .functionDefinition
  if (← isTyped) && t.isWord "interface" && (← nextIs fun n => !n.newline && n.isIdentifier) then
    let _ ← interfaceDeclaration rules
    return .exportDefault .interfaceDefinition
  let _ ← rules (.assignment true)
  endStatement
  return .exportDefault .value

/-- An export after its word. Decorators before it belong to a class. -/
def exportRest (rules : Rules) (decorated : Bool) : Parser Statement := do
  let typed ← isTyped
  let t ← token
  if t.isWord "default" then
    takeWord
    exportDefaultRest rules decorated
  else if decorated then
    let d ← anyDeclaration rules
    match d.kind with
    | .class _ _ => return .exportDeclaration d
    | _ => reject
  else if t.isPunct "*" then
    advance
    exportAllRest false
  else if t.isPunct "\x7b" then exportList false
  else if t.isPunct "@" then
    let _ ← decorators rules
    let d ← anyDeclaration rules
    match d.kind with
    | .class _ _ => return .exportDeclaration d
    | _ => reject
  else if typed && t.isPunct "=" then
    advance
    let _ ← rules (.assignment true)
    endStatement
    return .exportAssignment
  else if typed && t.isWord "as" && (← nextIs (·.isWord "namespace")) then
    takeWord
    takeWord
    let _ ← identifier
    endStatement
    return .exportNamespace
  else if typed && t.isWord "import" then
    takeWord
    match ← importRest with
    | .declaration d => return .exportDeclaration d
    | _ => reject
  else if typed && t.isWord "type" && (← nextIs (·.isPunct "\x7b")) then
    takeWord
    exportList true
  else if typed && t.isWord "type" && (← nextIs (·.isPunct "*")) then
    takeWord
    advance
    exportAllRest true
  else return .exportDeclaration (← anyDeclaration rules)

end ModuleGraph.Source.Parser
