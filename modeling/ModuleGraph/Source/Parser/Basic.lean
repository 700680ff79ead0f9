import ModuleGraph.Source.Lexer
import ModuleGraph.Source.Tree

set_option autoImplicit false

/-! # The parser's state and its small steps

A parser reads the current token and moves on; it has no value where the source is not
well-formed. Because the state is a plain value, looking ahead is running a parser and
forgetting where it got to.

The grammar refers to itself all over. Its rules are therefore written as plain functions of
the rules they use (`Rules`), named by the `Goal`s they reach, and the knot is tied once, in
`ModuleGraph.Source.Parser.Program`.
-/

namespace ModuleGraph.Source

structure Language where
  /-- Whether types may be written. -/
  typed : Bool
  jsx : Bool
  script : Bool
deriving DecidableEq, Repr, Inhabited

/-- What is allowed at a place of the source. -/
structure Context where
  language : Language
  /-- A bound for the length of lists, taken from the length of the source. -/
  bound : Nat
  /-- Whether `in` is an operator. -/
  inOperator : Bool := true
  yieldAllowed : Bool := false
  awaitAllowed : Bool := false
  returnAllowed : Bool := false
  /-- Whether declarations only tell about things that exist elsewhere. -/
  ambient : Bool := false
  /-- Whether a bracket ends the expression of a decorator. -/
  decorator : Bool := false
  /-- Whether a type may go on with `extends`. -/
  conditionalTypes : Bool := true
deriving Repr, Inhabited

structure State where
  token : Token
  /-- The source after the token. -/
  rest : List Char
  /-- The places of defaults in objects that nothing is assigned to, so far. -/
  loose : List Nat := []
deriving Repr, Inhabited

/-- A parser: what is allowed, and where it stands, give a result and where it stands then,
or nothing. -/
abbrev Parser := ReaderT Context (StateT State Option)

/-- Where a statement stands: among others, or alone as the body of another one. -/
inductive Placement where
  | list
  | alone
deriving DecidableEq, Repr, Inhabited

inductive Goal where
  /-- Expressions between commas. -/
  | expression
  /-- One expression; `arrowType` tells whether an arrow function may name its result type
  even if no colon follows. -/
  | assignment (arrowType : Bool)
  /-- Operations that bind tighter than the given strength. -/
  | binary (strength : Nat)
  | simpleUnary
  /-- A call, a member or something simpler. -/
  | leftHand
  /-- An expression without operators. -/
  | primary
  | pattern
  | statement (placement : Placement)
  | jsx
  | type
  /-- A type without `|`, `&` and conditions. -/
  | typeOperand
deriving Repr, Inhabited

abbrev Goal.Result : Goal → Type
  | .expression | .assignment _ | .binary _ | .simpleUnary | .leftHand | .primary => Expr
  | .pattern => Pattern
  | .statement _ => Statement
  | .jsx | .type | .typeOperand => Unit

abbrev Rules := (goal : Goal) → Parser goal.Result

namespace Parser

/-- The source is not well-formed. -/
def reject {α : Type} : Parser α := fun _ _ => none

/-- The source is well-formed only if the condition holds. -/
def require (condition : Bool) : Parser Unit := if condition then pure () else reject

def token : Parser Token := do return (← get).token

def language : Parser Language := do return (← read).language

def isTyped : Parser Bool := do return (← read).language.typed

/-- Runs a parser in a changed context. -/
def within {α : Type} (change : Context → Context) (p : Parser α) : Parser α :=
  fun c s => p (change c) s

/-- Runs a parser from here and comes back: its result, if it has one. -/
def lookAhead {α : Type} (p : Parser α) : Parser (Option α) :=
  fun c s => some ((p c s).map (·.1), s)

/-- Whether a test holds further on; the parser does not move. -/
def sees (p : Parser Bool) : Parser Bool := do return (← lookAhead p).getD false

/-- Runs a parser, and stays here if it has no result. -/
def attempt {α : Type} (p : Parser α) : Parser (Option α) :=
  fun c s =>
    match p c s with
    | some (a, s) => some (some a, s)
    | none => some (none, s)

/-- Moves to a token that is read in a special way from the source after the current one. -/
def moveTo (readNext : List Char → Option (Token × List Char)) : Parser Unit := fun _ s =>
  match readNext s.rest with
  | some (t, rest) => some ((), { s with token := t, rest := rest })
  | none => none

def advance : Parser Unit := do
  let script := (← language).script
  moveTo (readToken script false)

/-- Reads the current token anew, from its start. -/
def reread (readHere : Bool → List Char → Option (Token × List Char)) : Parser Unit :=
  fun _ s =>
    match readHere s.token.newline s.token.source with
    | some (t, rest) =>
      some ((), { s with token := { t with source := s.token.source }, rest := rest })
    | none => none

def isAt (p : String) : Parser Bool := do return (← token).isPunct p

def isAtOneOf (ps : List String) : Parser Bool := do return (← token).isPunctOf ps

def isAtWord (w : String) : Parser Bool := do return (← token).isWord w

def isAtWordOf (ws : List String) : Parser Bool := do return (← token).isWordOf ws

def isAtKind (kind : TokenKind) : Parser Bool := do return (← token).kind == kind

/-- Moves over the given operator or bracket, if it is there. -/
def eat (p : String) : Parser Bool := do
  if ← isAt p then
    advance
    return true
  else return false

/-- Moves over the given operator or bracket, which must be there. -/
def expect (p : String) : Parser Unit := do require (← eat p)

/-- Moves over a word that has its meaning here, and so is written without escapes. -/
def takeWord : Parser Unit := do
  require (!(← token).escaped)
  advance

def eatWord (w : String) : Parser Bool := do
  if ← isAtWord w then
    takeWord
    return true
  else return false

def expectWord (w : String) : Parser Unit := do require (← eatWord w)

/-- Whether the token after the current one passes a test. -/
def nextIs (test : Token → Bool) : Parser Bool :=
  sees do
    advance
    return test (← token)

/-- Whether a statement may end here without a semicolon. -/
def canEnd : Parser Bool := do
  let t ← token
  return t.newline || t.kind == .eof || t.isPunct "\x7d"

/-- Ends a statement: with a semicolon, or where one may be left out. -/
def endStatement : Parser Unit := do
  if ← eat ";" then return ()
  require (← canEnd)

/-- Repeats a step until it gives a result. -/
def repeatFor {σ β : Type} (step : σ → Parser (σ ⊕ β)) : Nat → σ → Parser β
  | 0, _ => reject
  | fuel + 1, s => do
    match ← step s with
    | .inl s => repeatFor step fuel s
    | .inr b => return b

/-- Repeats a step until it gives a result, at most as often as the source is long. -/
def loop {σ β : Type} (start : σ) (step : σ → Parser (σ ⊕ β)) : Parser β := do
  repeatFor step (← read).bound start

/-- Items up to a closing bracket, which is moved over, with commas between them; a comma
may also follow the last one. The answer tells whether it did. -/
def commaList {α : Type} (close : String) (item : Parser α) : Parser (List α × Bool) :=
  loop (([], false) : List α × Bool) fun (acc, comma) => do
    if ← eat close then return .inr (acc.reverse, comma)
    let a ← item
    if ← eat "," then return .inl (a :: acc, true)
    expect close
    return .inr ((a :: acc).reverse, false)

/-- Items with commas between them, at least one. -/
def commaSeparated {α : Type} (item : Parser α) : Parser (List α) := do
  let first ← item
  loop [first] fun acc => do
    if ← eat "," then
      let a ← item
      return .inl (a :: acc)
    else return .inr acc.reverse

/-! ## Names -/

/-- Whether a word cannot be a name at this place: `await` and `yield` are no names where
they are operators, and never in modules. -/
def isTaken (word : String) : Parser Bool := do
  let c ← read
  return isReserved word || (word == "await" && (c.awaitAllowed || !c.language.script)) ||
    (word == "yield" && (c.yieldAllowed || !c.language.script))

/-- A name that is not a word of the language. -/
def identifier : Parser String := do
  let t ← token
  require (t.kind == .name && !(← isTaken t.text))
  advance
  return t.text

/-- Any name, words of the language included. -/
def anyName : Parser String := do
  let t ← token
  require (t.kind == .name)
  advance
  return t.text

def stringValue : Parser String := do
  let t ← token
  require (t.kind == .string)
  advance
  return t.text

end Parser

end ModuleGraph.Source
