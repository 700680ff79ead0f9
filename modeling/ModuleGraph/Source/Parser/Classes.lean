import ModuleGraph.Source.Parser.Functions

set_option autoImplicit false

/-! # Classes

Classes with their members. The words that typed sources put before members are allowed in
all sources.
-/

namespace ModuleGraph.Source.Parser

/-- Words that may stand before a member, apart from `static`. -/
def memberWords : List String :=
  ["public", "private", "protected", "readonly", "override", "abstract", "declare", "async",
   "accessor"]

/-- Whether a token may follow a word before a member. -/
def followsMemberWord (t : Token) : Bool := isPropertyName t || t.isPunctOf ["*", "\x7b"]

/-- The words before a member, as many as there are. A word that nothing follows is the name
of the member itself. -/
def memberModifiers : Parser (List String) :=
  loop ([] : List String) fun seen => do
    let t ← token
    if t.isWord "static" && !seen.contains "static" &&
        (← nextIs fun n => followsMemberWord n && !n.isPunct "\x7b") then
      takeWord
      return .inl ("static" :: seen)
    if t.isWordOf memberWords && (← nextIs fun n => !n.newline && followsMemberWord n) then
      takeWord
      return .inl (t.text :: seen)
    return .inr seen

def memberName (rules : Rules) : Parser (Option String) := do
  let t ← token
  if t.kind == .privateName then
    require (t.text != "constructor")
    advance
    return none
  else propertyName rules

/-- A field from what follows its name on. -/
def fieldRest (rules : Rules) : Parser Unit := do
  typeAnnotation? rules
  if ← eat "=" then
    let inside (c : Context) : Context :=
      { c with
        inOperator := true, yieldAllowed := false, awaitAllowed := false, decorator := false }
    let _ ← within inside (rules (.assignment true))
  endStatement

/-- Whether an accessor follows: a word, and then a name. -/
def isAccessor (word : String) : Parser Bool := do
  if ← isAtWord word then nextIs fun n => isPropertyName n || n.isPunct "*" else return false

def classMember (rules : Rules) : Parser Unit := do
  let _ ← decorators rules
  -- A block that runs when the class is made.
  if (← isAtWord "static") && (← nextIs (·.isPunct "\x7b")) then
    takeWord
    expect "\x7b"
    let inside (c : Context) : Context :=
      { c with
        awaitAllowed := true, yieldAllowed := false, returnAllowed := false, inOperator := true,
        decorator := false }
    let _ ← within inside (statementsToBrace rules)
    return ()
  let modifiers ← memberModifiers
  let isStatic := modifiers.contains "static"
  let isAsync := modifiers.contains "async"
  let plainName (name : Option String) : Parser Unit :=
    require (!(if isStatic then name == some "prototype" else name == some "constructor"))
  if (← isAccessor "get") || (← isAccessor "set") then
    require !isAsync
    let isGetter ← isAtWord "get"
    takeWord
    let name ← memberName rules
    plainName name
    let _ ← accessorRest rules isGetter
    return ()
  if (← isTyped) && (← opensIndexSignature) then
    indexSignature rules
    endStatement
    return ()
  let isGenerator ← eat "*"
  let name ← memberName rules
  let optional ← eat "?"
  let definite ← if optional || (← token).newline then pure false else eat "!"
  require (!(optional || definite) || (← isTyped))
  if ← isAtOneOf ["(", "<"] then
    if isAsync || isGenerator || isStatic then plainName name
    let _ ← methodRest rules isAsync isGenerator
  else
    require (!(isAsync || isGenerator))
    require (name != some "constructor")
    plainName name
    fieldRest rules

def classBody (rules : Rules) : Parser Unit := do
  expect "\x7b"
  loop () fun _ => do
    if ← eat "\x7d" then return .inr ()
    if !(← eat ";") then classMember rules
    return .inl ()

/-- What a class extends and implements. -/
def heritage (rules : Rules) : Parser Unit := do
  if ← eatWord "extends" then
    let _ ← rules .leftHand
    if ← isTyped then typeArguments? rules
  if (← isTyped) && (← eatWord "implements") then
    let _ ← commaSeparated do
      typeReference rules

/-- A class from the word `class` on: its name, if it has one. -/
def classRest (rules : Rules) : Parser (Option String) := do
  expectWord "class"
  let t ← token
  let name ← if t.isIdentifier && !(t.isWord "implements" && (← nextIs (·.kind == .name))) then
      pure (some (← identifier))
    else pure none
  let _ ← typeParameters? rules
  heritage rules
  classBody rules
  return name

end ModuleGraph.Source.Parser
