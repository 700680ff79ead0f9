import ModuleGraph.Source.Parser.Expressions
import ModuleGraph.Source.Parser.Modules

set_option autoImplicit false

/-! # Statements

All statements but imports and exports. A statement that is the body of another one may not
declare a class or a variable of its own block.
-/

namespace ModuleGraph.Source.Parser

/-- An expression in parentheses. -/
def condition (rules : Rules) : Parser Unit := do
  expect "("
  let _ ← withIn true (rules .expression)
  expect ")"

def bodyStatement (rules : Rules) : Parser Statement := rules (.statement .alone)

def block (rules : Rules) : Parser (List Statement) := do
  expect "\x7b"
  statementsToBrace rules

def ifStatement (rules : Rules) : Parser Statement := do
  expectWord "if"
  condition rules
  let first ← bodyStatement rules
  if ← eatWord "else" then return .other [first, ← bodyStatement rules]
  return .other [first]

/-- A loop that runs at least once. -/
def doStatement (rules : Rules) : Parser Statement := do
  expectWord "do"
  let body ← bodyStatement rules
  expectWord "while"
  condition rules
  let _ ← eat ";"
  return .other [body]

/-- A statement that is a word, a condition and a body. -/
def guardedStatement (rules : Rules) (word : String) : Parser Statement := do
  expectWord word
  condition rules
  return .other [← bodyStatement rules]

/-- A jump, perhaps to a label on the same line. -/
def jumpStatement : Parser Statement := do
  takeWord
  if !(← canEnd) && !(← isAt ";") then
    let _ ← identifier
  endStatement
  return .other []

def returnStatement (rules : Rules) : Parser Statement := do
  require (← read).returnAllowed
  expectWord "return"
  if !(← canEnd) && !(← isAt ";") then
    let _ ← withIn true (rules .expression)
  endStatement
  return .other []

/-- An exception that is thrown, on the line of its word. -/
def throwStatement (rules : Rules) : Parser Statement := do
  expectWord "throw"
  require (!(← token).newline)
  let _ ← withIn true (rules .expression)
  endStatement
  return .other []

def tryStatement (rules : Rules) : Parser Statement := do
  expectWord "try"
  let body ← block rules
  let handler ← if ← eatWord "catch" then
      if ← eat "(" then
        let _ ← rules .pattern
        typeAnnotation? rules
        expect ")"
      pure (some (← block rules))
    else pure none
  let final ← if ← eatWord "finally" then pure (some (← block rules)) else pure none
  require (handler.isSome || final.isSome)
  return .other (body ++ handler.getD [] ++ final.getD [])

def caseBody (rules : Rules) : Parser (List Statement) :=
  loop ([] : List Statement) fun acc => do
    if (← isAt "\x7d") || (← isAtWordOf ["case", "default"]) then return .inr acc.reverse
    let s ← rules (.statement .list)
    return .inl (s :: acc)

def switchStatement (rules : Rules) : Parser Statement := do
  expectWord "switch"
  condition rules
  expect "\x7b"
  loop ([] : List Statement) fun acc => do
    if ← eat "\x7d" then return .inr (.other acc)
    if ← eatWord "case" then
      let _ ← withIn true (rules .expression)
    else expectWord "default"
    expect ":"
    let body ← caseBody rules
    return .inl (acc ++ body)

/-! ## Loops with a head -/

/-- The three parts of a loop's head from its first semicolon on, and the body. -/
def countedRest (rules : Rules) : Parser Statement := do
  expect ";"
  if !(← isAt ";") then
    let _ ← withIn true (rules .expression)
  expect ";"
  if !(← isAt ")") then
    let _ ← withIn true (rules .expression)
  expect ")"
  return .other [← bodyStatement rules]

/-- A loop over what an object holds, from `in` or `of` on. -/
def iterationRest (rules : Rules) (isAwait : Bool) : Parser Statement := do
  if !isAwait && (← eatWord "in") then
    let _ ← withIn true (rules .expression)
  else
    expectWord "of"
    let _ ← withIn true (rules (.assignment true))
  expect ")"
  return .other [← bodyStatement rules]

/-- A loop whose head declares variables, after the declaring word. -/
def declaringLoop (rules : Rules) (isConst isAwait : Bool) : Parser Statement := do
  let ds ← withIn false (bindings rules isConst .loopHead)
  if ← isAtWordOf ["in", "of"] then iterationRest rules isAwait
  else
    require (!isAwait)
    require (ds.all (·.isComplete isConst false))
    countedRest rules

/-- A loop whose head starts with an expression. -/
def expressionLoop (rules : Rules) (isAwait : Bool) : Parser Statement := do
  let startsLet := (← isAtWord "let") && !(← token).escaped
  let startsAsync := (← isAtWord "async") && (← nextIs (·.isWord "of"))
  let e ← withIn false (rules .expression)
  if ← isAtWordOf ["in", "of"] then
    if ← isAtWord "of" then
      require (!(startsAsync && !isAwait))
      require (!(startsLet && (match e with
        | .name _ => true
        | _ => false)))
    match e.target? with
    | some places => settle places
    | none => reject
    iterationRest rules isAwait
  else
    require (!isAwait)
    countedRest rules

/-- Whether `using` here declares a resource: a name follows it on the same line. -/
def startsUsing (inLoop : Bool) : Parser Bool :=
  sees do
    expectWord "using"
    let t ← token
    if t.newline || !t.isIdentifier then return false
    if inLoop && t.isWord "of" then nextIs fun n => n.isPunct "=" || n.isPunct ";"
    else return true

def startsAwaitUsing (inLoop : Bool) : Parser Bool :=
  sees do
    expectWord "await"
    if (← token).newline then return false
    startsUsing inLoop

def forStatement (rules : Rules) : Parser Statement := do
  expectWord "for"
  let isAwait ← isAtWord "await"
  if isAwait then
    require (← read).awaitAllowed
    takeWord
  expect "("
  if ← isAt ";" then
    require (!isAwait)
    return ← countedRest rules
  let t ← token
  let afterLet (n : Token) : Bool :=
    n.isPunctOf ["\x7b", "["] || (n.kind == .name && n.text != "in")
  if t.isWordOf ["var", "const"] || (t.isWord "let" && (← nextIs afterLet)) then
    takeWord
    declaringLoop rules (t.text == "const") isAwait
  else if ← startsUsing true then
    takeWord
    declaringLoop rules false isAwait
  else if (← read).awaitAllowed && (← startsAwaitUsing true) then
    takeWord
    takeWord
    declaringLoop rules false isAwait
  else expressionLoop rules isAwait

/-! ## Declarations and expressions -/

/-- Resources that are given back at the end of their block; each is a name with a value. -/
def usingStatement (rules : Rules) (placement : Placement) : Parser Statement := do
  require (placement == .list)
  takeWord
  let ds ← commaSeparated (declarator rules)
  require (ds.all fun d => d.hasValue && !d.pattern.isStructure)
  endStatement
  return .declaration ⟨.bindings (ds.map (·.pattern)), false⟩

def expressionStatement (rules : Rules) : Parser Statement := do
  let e ← withIn true (rules .expression)
  match e with
  | .name _ =>
    -- A name with a colon is a label.
    if ← eat ":" then return .other [← bodyStatement rules]
    endStatement
    return .other []
  | _ =>
    endStatement
    return .other []

/-- What starts with the word `let`: variables, or an expression about a variable of that
name. -/
def letStatement (rules : Rules) (placement : Placement) : Parser Statement := do
  let n ← lookAhead do
    advance
    operatorToken
  match n with
  | none => reject
  | some n =>
    let isOperation := n.isPunctOf assignmentOperators || (strength? n).isSome ||
      n.isPunctOf [".", "("]
    if isOperation then
      let _ ← withIn true (rules .expression)
      endStatement
      return .other []
    else if (placement == .alone && !n.isPunct "[") || n.isPunct ";" then
      let _ ← identifier
      endStatement
      return .other []
    else
      require (placement == .list)
      takeWord
      return .declaration ⟨← variableDeclaration rules false, false⟩

/-- A statement that starts with decorators: a class, perhaps exported. -/
def decoratedStatement (rules : Rules) : Parser Statement := do
  let _ ← decorators rules
  if ← eatWord "export" then exportRest rules true
  else
    let d ← anyDeclaration rules
    match d.kind with
    | .class _ _ => return .declaration d
    | _ => reject

def statement (rules : Rules) (placement : Placement) : Parser Statement := do
  let t ← token
  if t.isPunct "\x7b" then return .other (← block rules)
  if t.isPunct ";" then
    advance
    return .other []
  if t.isPunct "@" then return ← decoratedStatement rules
  if t.kind != .name then return ← expressionStatement rules
  match t.text with
  | "if" => ifStatement rules
  | "do" => doStatement rules
  | "while" => guardedStatement rules "while"
  | "with" => guardedStatement rules "with"
  | "for" => forStatement rules
  | "continue" | "break" => jumpStatement
  | "return" => returnStatement rules
  | "throw" => throwStatement rules
  | "try" => tryStatement rules
  | "switch" => switchStatement rules
  | "debugger" =>
    takeWord
    endStatement
    return .other []
  | "class" =>
    require (placement == .list)
    return .declaration ⟨← classDeclaration rules false, false⟩
  | "function" =>
    let (name, hasBody) ← functionDeclaration rules false true placement
    return .declaration ⟨.function name hasBody, false⟩
  | "var" =>
    takeWord
    return .declaration ⟨← variableDeclaration rules false, false⟩
  | "const" =>
    require (placement == .list)
    return .declaration ⟨← declarationKind rules false, false⟩
  | "let" => letStatement rules placement
  | "export" =>
    takeWord
    exportRest rules false
  | "import" =>
    if ← nextIs (·.isPunctOf ["(", "."]) then expressionStatement rules
    else
      takeWord
      importRest
  | word =>
    if word == "async" && (← nextIs fun n => !n.newline && n.isWord "function") then
      takeWord
      let (name, hasBody) ← functionDeclaration rules true true placement
      return .declaration ⟨.function name hasBody, false⟩
    else if word == "using" && (← startsUsing false) then usingStatement rules placement
    else if word == "await" && (← read).awaitAllowed && (← startsAwaitUsing false) then
      takeWord
      usingStatement rules placement
    else if (← isTyped) && (← startsTypedDeclaration) then
      return .declaration (← anyDeclaration rules)
    else expressionStatement rules

end ModuleGraph.Source.Parser
