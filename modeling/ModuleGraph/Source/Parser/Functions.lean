import ModuleGraph.Source.Parser.Patterns

set_option autoImplicit false

/-! # Functions

Bodies of functions, functions that are declared or used as values, and arrow functions.
-/

namespace ModuleGraph.Source.Parser

/-- Statements up to a closing brace, which is moved over. -/
def statementsToBrace (rules : Rules) : Parser (List Statement) :=
  loop ([] : List Statement) fun acc => do
    if ← eat "\x7d" then return .inr acc.reverse
    let s ← rules (.statement .list)
    return .inl (s :: acc)

def functionContext (isAsync isGenerator : Bool) (c : Context) : Context :=
  { c with
    awaitAllowed := isAsync, yieldAllowed := isGenerator, returnAllowed := true,
    inOperator := true, decorator := false }

def functionBody (rules : Rules) (isAsync isGenerator : Bool) : Parser Unit := do
  expect "\x7b"
  let _ ← within (functionContext isAsync isGenerator) (statementsToBrace rules)

/-- A function from its type parameters on: its parameters, and whether it has a body.
Without a body it is only a signature, which typed sources may have. -/
def functionRest (rules : Rules) (isAsync isGenerator : Bool) :
    Parser (List Parameter × Bool) := do
  let _ ← typeParameters? rules
  let params ← within (fun c => { c with awaitAllowed := isAsync, yieldAllowed := isGenerator })
    (parameters rules)
  let _ ← resultAnnotation? rules
  if ← isAt "\x7b" then
    functionBody rules isAsync isGenerator
    return (params, true)
  else
    require (← isTyped)
    endStatement
    return (params, false)

def methodRest (rules : Rules) (isAsync isGenerator : Bool) : Parser Bool := do
  return (← functionRest rules isAsync isGenerator).2

/-- The number of parameters that a getter or a setter has. -/
def accessorRest (rules : Rules) (isGetter : Bool) : Parser Bool := do
  let (params, hasBody) ← functionRest rules false false
  let proper := params.filter fun p =>
    match p.pattern with
    | .name "this" => false
    | _ => true
  if isGetter then require proper.isEmpty
  else
    match proper with
    | [p] => require (!p.isRest)
    | _ => reject
  return hasBody

def functionExpression (rules : Rules) (isAsync : Bool) : Parser Expr := do
  expectWord "function"
  let isGenerator ← eat "*"
  within (fun c => { c with awaitAllowed := isAsync, yieldAllowed := isGenerator }) do
    if !(← isAtOneOf ["(", "<"]) then
      let _ ← identifier
  let (_, hasBody) ← functionRest rules isAsync isGenerator
  require hasBody
  return .other

/-- A function that is declared, from the word `function` on: its name, and whether it has a
body. Only a default export may leave out the name. -/
def functionDeclaration (rules : Rules) (isAsync needsName : Bool) (placement : Placement) :
    Parser (Option String × Bool) := do
  expectWord "function"
  let isGenerator ← eat "*"
  require (placement == .list || !(isAsync || isGenerator))
  let name ← if !needsName && (← isAtOneOf ["(", "<"]) then pure none
    else pure (some (← identifier))
  let (_, hasBody) ← functionRest rules isAsync isGenerator
  require (!(hasBody && (← read).ambient))
  return (name, hasBody)

/-! ## Arrow functions -/

/-- The body of an arrow function after its arrow. -/
def arrowBody (rules : Rules) (isAsync arrowType : Bool) : Parser Unit := do
  if ← isAt "\x7b" then functionBody rules isAsync false
  else
    let _ ← within (fun c => { c with awaitAllowed := isAsync, yieldAllowed := false })
      (rules (.assignment arrowType))

/-- Moves over an arrow, which stands on the line of what is before it. -/
def arrow : Parser Unit := do
  require (!(← token).newline)
  expect "=>"

/-- An arrow function with its parameters in parentheses. Where its result type may be the
other half of a conditional expression, a colon must follow it. -/
def arrowFunction (rules : Rules) (arrowType : Bool) : Parser Expr := do
  let isAsync ← eatWord "async"
  let _ ← typeParameters? rules
  let _ ← within (fun c => { c with awaitAllowed := c.awaitAllowed || isAsync })
    (parameters rules)
  let hasType ← resultAnnotation? rules
  arrow
  arrowBody rules isAsync arrowType
  if hasType && !arrowType then require (← isAt ":")
  return .other

/-- How sure it is that an arrow function starts here. -/
inductive Likelihood where
  | no
  | maybe
  | yes
deriving DecidableEq, Repr, Inhabited

/-- Judges by the tokens after an opening parenthesis whether it opens the parameters of an
arrow function. -/
def judgeParenthesis : Parser Likelihood := do
  expect "("
  let typed ← isTyped
  if ← eat ")" then
    if ← isAtOneOf ["=>", "\x7b"] then return .yes
    return if typed && (← isAt ":") then .maybe else .no
  if ← isAtOneOf ["[", "\x7b"] then return .maybe
  if ← isAt "..." then return .yes
  let t ← token
  if typed && t.isWordOf parameterWords && (← nextIs (·.isIdentifier)) then
    return if ← nextIs (·.isWord "as") then .no else .yes
  if !(t.isIdentifier || t.isWord "this") then return .no
  advance
  if ← isAt ":" then return .yes
  if ← eat "?" then
    return if ← isAtOneOf [":", ",", "=", ")"] then .yes else .no
  return if ← isAtOneOf [",", "=", ")"] then .maybe else .no

/-- Judges by the tokens after an opening angle whether it opens the type parameters of an
arrow function. Where JSX is allowed, a comma, a default or a bound must tell. -/
def judgeAngle : Parser Likelihood := do
  expect "<"
  require (← isTyped)
  let t ← token
  if !(t.isIdentifier || t.isWord "const") then return .no
  if (← language).jsx then
    let _ ← eatWord "const"
    advance
    if ← isAtOneOf [",", "="] then return .yes
    if ← eatWord "extends" then
      return if ← isAtOneOf ["=", ">", "/"] then .no else .yes
    return .no
  return .maybe

/-- Judges whether an arrow function with parentheses starts here. -/
def judgeArrow : Parser Likelihood := do
  let judged ← lookAhead do
    if ← isAtWord "async" then
      advance
      require (!(← token).newline)
    if ← isAt "(" then judgeParenthesis
    else if ← isAt "<" then judgeAngle
    else return .no
  return judged.getD .no

/-- An arrow function with its parameters in parentheses, if one starts here. -/
def arrowFunction? (rules : Rules) (arrowType : Bool) : Parser (Option Expr) := do
  match ← judgeArrow with
  | .no => return none
  | .yes => return some (← arrowFunction rules true)
  | .maybe => attempt (arrowFunction rules arrowType)

/-- An arrow function such as `async x => y`, if one starts here. -/
def asyncArrow? (rules : Rules) (arrowType : Bool) : Parser (Option Expr) := do
  let starts ← sees do
    expectWord "async"
    let t ← token
    require (!t.newline && t.isIdentifier)
    advance
    isAt "=>"
  if starts then
    takeWord
    let _ ← within (fun c => { c with awaitAllowed := true }) identifier
    arrow
    arrowBody rules true arrowType
    return some .other
  else return none

end ModuleGraph.Source.Parser
