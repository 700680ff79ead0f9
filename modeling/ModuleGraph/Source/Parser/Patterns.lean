import ModuleGraph.Source.Parser.Types

set_option autoImplicit false

/-! # Binding patterns

The names and structures of names that declarations and parameters bind.
-/

namespace ModuleGraph.Source.Parser

/-- A pattern with a default value, if one follows. -/
def defaulted (rules : Rules) (pattern : Pattern) : Parser Pattern := do
  if ← eat "=" then
    let value ← withIn true (rules (.assignment true))
    return .withDefault pattern value
  else return pattern

/-- A field of an object pattern: a key with a pattern, or a name that is both. -/
def patternField (rules : Rules) : Parser (Option String × Pattern) := do
  let t ← token
  let isName := t.kind == .name && !(← isTaken t.text)
  let key ← propertyName rules
  if ← eat ":" then
    let target ← rules .pattern
    return (key, ← defaulted rules target)
  require isName
  return (key, ← defaulted rules (.name t.text))

/-- The fields of an object pattern after its opening brace. A rest element is a name, and
nothing follows it. -/
def objectPattern (rules : Rules) : Parser Pattern := do
  loop ([] : List (Option String × Pattern)) fun acc => do
    if ← eat "\x7d" then return .inr (.object acc.reverse none)
    if ← eat "..." then
      let name ← identifier
      expect "\x7d"
      return .inr (.object acc.reverse (some (.name name)))
    let field ← patternField rules
    if ← eat "," then return .inl (field :: acc)
    expect "\x7d"
    return .inr (.object (field :: acc).reverse none)

/-- The items of an array pattern after its opening bracket. Nothing follows a rest
element. -/
def arrayPattern (rules : Rules) : Parser Pattern := do
  loop ([] : List (Option Pattern)) fun acc => do
    if ← eat "]" then return .inr (.array acc.reverse none)
    if ← eat "," then return .inl (none :: acc)
    if ← eat "..." then
      let rest ← rules .pattern
      expect "]"
      return .inr (.array acc.reverse (some rest))
    let target ← rules .pattern
    let item ← defaulted rules target
    if ← eat "," then return .inl (some item :: acc)
    expect "]"
    return .inr (.array (some item :: acc).reverse none)

/-- A name or a structure of names. -/
def pattern (rules : Rules) : Parser Pattern := do
  if ← eat "\x7b" then objectPattern rules
  else if ← eat "[" then arrayPattern rules
  else return .name (← identifier)

end ModuleGraph.Source.Parser
