import ModuleGraph.Source.Parser.Types

set_option autoImplicit false

/-! # JSX

Elements and fragments with their attributes and children. Opening and closing tag must
name the same element.
-/

namespace ModuleGraph.Source.Parser

/-- A part of a JSX name, which may hold hyphens. -/
def jsxNamePart : Parser String := do
  let t ← token
  require (t.kind == .name)
  reread fun newline cs =>
    let (name, rest) := readJsxName cs
    some (⟨.name, String.ofList name, newline, false, false, cs⟩, rest)
  let name := (← token).text
  advance
  return name

/-- The name of an element: a name, a name in a namespace, or a member. -/
def jsxElementName : Parser String := do
  let first ← jsxNamePart
  if ← eat ":" then
    let second ← jsxNamePart
    return first ++ ":" ++ second
  loop first fun name => do
    if ← isAt "." then
      require (!name.toList.contains '-')
      advance
      let part ← jsxNamePart
      return .inl (name ++ "." ++ part)
    else return .inr name

def jsxBraced (rules : Rules) : Parser Unit := do
  expect "\x7b"
  let _ ← withIn true (rules .expression)
  expect "\x7d"

/-- The value of an attribute after its equals sign, which is the current token. -/
def jsxAttributeValue (rules : Rules) : Parser Unit := do
  let script := (← language).script
  moveTo fun cs =>
    match skipGap script .blank false cs with
    | some (_, '"' :: rest) => readJsxString '"' rest
    | some (_, '\'' :: rest) => readJsxString '\'' rest
    | some (newline, rest) => readTokenHere newline rest
    | none => none
  let t ← token
  if t.kind == .string then advance
  else if t.isPunct "\x7b" then jsxBraced rules
  else
    require (t.isPunct "<")
    rules .jsx

def jsxAttributes (rules : Rules) : Parser Unit :=
  loop () fun _ => do
    let t ← token
    if t.isPunct "\x7b" then
      advance
      expect "..."
      let _ ← withIn true (rules (.assignment true))
      expect "\x7d"
      return .inl ()
    else if t.kind == .name then
      let _ ← jsxNamePart
      if ← eat ":" then
        let _ ← jsxNamePart
      if ← isAt "=" then jsxAttributeValue rules
      return .inl ()
    else return .inr ()

/-- Moves to what stands between two tags. -/
def nextJsxChild : Parser Unit := moveTo readJsxChild

/-- Where the parser goes on after an element: among the children of another element, or in
the code around it. -/
inductive JsxPlace where
  | child
  | code
deriving DecidableEq, Repr, Inhabited

/-- Moves over the closing angle of a tag, to where the place says. -/
def closeAngle (place : JsxPlace) : Parser Unit := do
  require (← isAt ">")
  match place with
  | .child => nextJsxChild
  | .code => advance

/-- The children of an element up to its closing tag, of which the opening angle and the
slash are moved over. The elements among them are kept open on a list of names, innermost
first, so that tags can be matched; the first name is that of the outermost element. -/
def jsxChildren (rules : Rules) (place : JsxPlace) (name : String) : Parser Unit :=
  loop [name] fun names => do
    let t ← token
    if t.kind == .jsxText then
      nextJsxChild
      return .inl names
    else if t.isPunct "\x7b" then
      advance
      if !(← isAt "\x7d") then
        let _ ← eat "..."
        let _ ← withIn true (rules .expression)
      require (← isAt "\x7d")
      nextJsxChild
      return .inl names
    else
      expect "<"
      if ← eat "/" then
        -- A closing tag.
        let closing ← if ← isAt ">" then pure "" else jsxElementName
        match names with
        | [] => reject
        | [last] =>
          require (closing == last)
          closeAngle place
          return .inr ()
        | last :: outer =>
          require (closing == last)
          closeAngle .child
          return .inl outer
      else if ← isAt ">" then
        nextJsxChild
        return .inl ("" :: names)
      else
        let opening ← jsxElementName
        if ← isTyped then
          if ← isAtOneOf ["<", "<<"] then typeArguments rules
        jsxAttributes rules
        if ← eat "/" then
          closeAngle .child
          return .inl names
        else
          closeAngle .child
          return .inl (opening :: names)

/-- An element or a fragment, from its opening angle on. -/
def jsxElement (rules : Rules) : Parser Unit := do
  expect "<"
  if ← isAt ">" then
    nextJsxChild
    jsxChildren rules .code ""
  else
    let name ← jsxElementName
    if ← isTyped then
      if ← isAtOneOf ["<", "<<"] then typeArguments rules
    jsxAttributes rules
    if ← eat "/" then closeAngle .code
    else
      closeAngle .child
      jsxChildren rules .code name

end ModuleGraph.Source.Parser
