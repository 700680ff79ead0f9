import ModuleGraph.Source.Parser.Classes

set_option autoImplicit false

/-! # Expressions

From the loosest binding to the tightest: expressions between commas, assignments with
arrow functions and conditions, binary operations by strength, prefix and postfix operators,
calls and members, and what stands without an operator.
-/

namespace ModuleGraph.Source.Parser

/-! ## Literals -/

/-- A template up to its end. Where it is not passed to a function, all its escapes must
have a meaning. -/
def template (rules : Rules) (tagged : Bool) : Parser Unit :=
  loop () fun _ => do
    let t ← token
    require (tagged || !t.flawed)
    if t.kind == .templateEnd then
      advance
      return .inr ()
    require (t.kind == .templateOpen)
    advance
    let _ ← within (fun c => { c with inOperator := true, decorator := false })
      (rules .expression)
    require (← isAt "\x7d")
    moveTo (readTemplate false)
    return .inl ()

/-- An item of an array or an argument of a call. -/
def spreadable (rules : Rules) : Parser Expr := do
  let inside (c : Context) : Context := { c with inOperator := true, decorator := false }
  if ← eat "..." then return .spread (← within inside (rules (.assignment true)))
  else within inside (rules (.assignment true))

def arrayRest (rules : Rules) : Parser Expr :=
  loop ([] : List Expr) fun acc => do
    if ← eat "]" then return .inr (.array acc.reverse false)
    if ← eat "," then return .inl (.hole :: acc)
    let item ← spreadable rules
    if ← eat "," then
      if ← eat "]" then return .inr (.array (item :: acc).reverse true)
      return .inl (item :: acc)
    expect "]"
    return .inr (.array (item :: acc).reverse false)

/-- Notes the place of a default in an object. -/
def noteLoose : Parser Nat := do
  let place := (← get).rest.length
  modify fun s => { s with loose := place :: s.loose }
  return place

/-- Forgets the places of defaults that have got a meaning. -/
def settle (places : List Nat) : Parser Unit :=
  modify fun s => { s with loose := s.loose.filter (!places.contains ·) }

def objectMemberRest (rules : Rules) : Parser Expr := do
  let t ← token
  require (t.kind != .privateName)
  let isName := t.kind == .name && !(← isTaken t.text)
  let _ ← propertyName rules
  if ← isAtOneOf ["(", "<"] then
    require (← methodRest rules false false)
    return .method
  if ← eat ":" then return .field (← withIn true (rules (.assignment true)))
  require isName
  if ← isAt "=" then
    let place ← noteLoose
    advance
    let _ ← withIn true (rules (.assignment true))
    return .shorthand t.text (some place)
  return .shorthand t.text none

def objectMember (rules : Rules) : Parser Expr := do
  if ← eat "..." then return .spread (← withIn true (rules (.assignment true)))
  if (← isAtWordOf ["get", "set"]) && (← nextIs isPropertyName) then
    let isGetter ← isAtWord "get"
    takeWord
    require ((← token).kind != .privateName)
    let _ ← propertyName rules
    require (← accessorRest rules isGetter)
    return .method
  let isAsync ← if ← isAtWord "async" then
      nextIs fun n => !n.newline && (isPropertyName n || n.isPunct "*")
    else pure false
  if isAsync then takeWord
  let isGenerator ← eat "*"
  if isAsync || isGenerator then
    require ((← token).kind != .privateName)
    let _ ← propertyName rules
    require (← methodRest rules isAsync isGenerator)
    return .method
  objectMemberRest rules

def objectRest (rules : Rules) : Parser Expr := do
  let (members, comma) ← commaList "\x7d"
    (within (fun c => { c with decorator := false }) (objectMember rules))
  return .object members comma

/-! ## Calls and members -/

def arguments (rules : Rules) : Parser Unit := do
  expect "("
  let _ ← commaList ")" (spreadable rules)

def startsExpression (t : Token) : Bool :=
  match t.kind with
  | .name =>
    t.isIdentifier ||
      t.isWordOf ["this", "super", "null", "true", "false", "function", "class", "new", "delete",
        "typeof", "void", "import"]
  | .punct =>
    t.isPunctOf ["(", "[", "\x7b", "+", "-", "~", "!", "++", "--", "<", "/", "/=", "@"]
  | .eof | .jsxText => false
  | _ => true

/-- The strength of a binary operator; stronger ones bind tighter. -/
def strength? (t : Token) : Option Nat :=
  match t.kind with
  | .punct =>
    match t.text with
    | "??" => some 1
    | "||" => some 2
    | "&&" => some 3
    | "|" => some 4
    | "^" => some 5
    | "&" => some 6
    | "==" | "!=" | "===" | "!==" => some 7
    | "<" | ">" | "<=" | ">=" => some 8
    | "<<" | ">>" | ">>>" => some 9
    | "+" | "-" => some 10
    | "*" | "/" | "%" => some 11
    | "**" => some 12
    | _ => none
  | .name => if t.isWordOf ["instanceof", "in"] then some 8 else none
  | _ => none

/-- The operator that starts with the closing angle here, as a token with what follows. -/
def joinedAngle : Parser (Option (Token × List Char)) := do
  let s ← get
  if s.token.isPunct ">" then
    return (angleOperators.find? fun op => op.toList.isPrefixOf s.token.source).map fun op =>
      ({ s.token with text := op }, s.token.source.drop op.length)
  else return none

/-- The current token, with a closing angle read as far as it goes. -/
def operatorToken : Parser Token := do
  match ← joinedAngle with
  | some (t, _) => return t
  | none => token

/-- Moves over an operator, with a closing angle read as far as it goes. -/
def takeOperator : Parser Unit := do
  if let some (t, rest) := ← joinedAngle then
    modify fun s => { s with token := t, rest := rest }
  if ← isAtKind .name then takeWord else advance

/-- Type arguments in an expression, if what follows them does not say that the angle was an
operator. -/
def callTypeArguments (rules : Rules) : Parser Bool := do
  let parsed ← attempt do
    splitLeftAngle
    expect "<"
    let (args, _) ← loop (([], false) : List Unit × Bool) fun (acc, _) => do
      rules .type
      if ← eat "," then return .inl (() :: acc, true)
      -- The closing angle may not be part of a longer operator.
      require ((← joinedAngle).isNone)
      expect ">"
      return .inr ((() :: acc), false)
    require (!args.isEmpty)
    let t ← token
    if t.isPunct "(" || t.isTemplate then return ()
    require (!t.isPunctOf ["<", ">", "+", "-"])
    let isOperator := (strength? t).isSome || t.isWordOf ["as", "satisfies"]
    require (t.newline || isOperator || !startsExpression t)
  return parsed.isSome

/-- What is known while members and calls are followed: the expression so far, and whether a
`?.` was among them. -/
structure ChainState where
  expr : Expr
  optional : Bool
deriving Repr, Inhabited

def pointMember : Parser Unit := do
  let t ← token
  require (t.kind == .name || t.kind == .privateName)
  advance

def bracketMember (rules : Rules) : Parser Unit := do
  let _ ← within (fun c => { c with inOperator := true, decorator := false }) (rules .expression)
  expect "]"

/-- Follows members, as far as they go. With `calls` a `?.` may also start an optional
member. -/
def membersRest (rules : Rules) (start : ChainState) : Parser ChainState :=
  loop start fun s => do
    let t ← token
    let c ← read
    if t.isPunct "." then
      advance
      pointMember
      return .inl ⟨.member, s.optional⟩
    else if t.isPunct "?." then
      let n ← lookAhead do
        advance
        token
      match n with
      | some n =>
        if n.kind == .name || n.kind == .privateName then
          advance
          pointMember
          return .inl ⟨.member, true⟩
        else if n.isPunct "[" then
          advance
          advance
          bracketMember rules
          return .inl ⟨.member, true⟩
        else return .inr s
      | none => reject
    else if t.isPunct "[" && !c.decorator then
      advance
      bracketMember rules
      return .inl ⟨.member, s.optional⟩
    else if t.isTemplate then
      require (!s.optional)
      template rules true
      return .inl ⟨.other, s.optional⟩
    else if c.language.typed && t.isPunct "!" && !t.newline then
      advance
      return .inl ⟨.cast s.expr, s.optional⟩
    else if c.language.typed && t.isPunctOf ["<", "<<"] then
      if ← callTypeArguments rules then
        if (← token).isTemplate then
          require (!s.optional)
          template rules true
          return .inl ⟨.other, s.optional⟩
        return .inl ⟨.instantiated s.expr, s.optional⟩
      else return .inr s
    else return .inr s

/-- Follows members and calls, as far as they go. -/
def callsRest (rules : Rules) (start : ChainState) : Parser ChainState :=
  loop start fun s => do
    let s ← membersRest rules s
    if ← eat "?." then
      if ← isTyped then
        if ← isAtOneOf ["<", "<<"] then typeArguments rules
      arguments rules
      return .inl ⟨.other, true⟩
    else if ← isAt "(" then
      arguments rules
      return .inl ⟨.other, s.optional⟩
    else return .inr s

/-- What `import` starts in an expression: the module's own data, or a dynamic import. -/
def importExpression (rules : Rules) : Parser Expr := do
  expectWord "import"
  if ← eat "." then
    if ← eatWord "meta" then return .other
    require (← isAtWordOf ["source", "defer"])
    takeWord
  expect "("
  let inside (c : Context) : Context := { c with inOperator := true, decorator := false }
  let _ ← within inside (rules (.assignment true))
  if ← eat "," then
    if !(← isAt ")") then
      let _ ← within inside (rules (.assignment true))
      let _ ← eat ","
  expect ")"
  return .importCall

/-- The parent class, of which a member is used or which is called. -/
def superExpression : Parser Expr := do
  expectWord "super"
  require (← isAtOneOf [".", "[", "("])
  return .other

/-- A call, a member or something simpler. -/
def leftHand (rules : Rules) : Parser Expr := do
  let first ← if ← isAtWord "import" then importExpression rules
    else if ← isAtWord "super" then superExpression
    else rules .primary
  let s ← callsRest rules ⟨first, false⟩
  return if s.optional then .chain else s.expr

def newExpression (rules : Rules) : Parser Expr := do
  expectWord "new"
  if ← eat "." then
    expectWord "target"
    return .other
  let first ← if ← isAtWord "import" then importExpression rules
    else if ← isAtWord "super" then superExpression
    else rules .primary
  let s ← membersRest rules ⟨first, false⟩
  require (!s.optional)
  match s.expr with
  | .importCall => reject
  | _ =>
    if ← isAt "(" then arguments rules
    return .other

/-! ## Without operators -/

/-- An expression in parentheses. -/
def groupRest (rules : Rules) : Parser Expr := do
  let inside (c : Context) : Context := { c with inOperator := true, decorator := false }
  let exprs ← within inside (commaSeparated (rules (.assignment true)))
  expect ")"
  return .group (match exprs with
    | [e] => e
    | _ => .other)

/-- An expression without operators. -/
def primary (rules : Rules) : Parser Expr := do
  let t ← token
  match t.kind with
  | .number | .bigint | .string =>
    advance
    return .other
  | .templateOpen | .templateEnd =>
    template rules false
    return .other
  | .punct =>
    if t.isPunct "(" then
      advance
      groupRest rules
    else if t.isPunct "[" then
      advance
      arrayRest rules
    else if t.isPunct "\x7b" then
      advance
      objectRest rules
    else if t.isPunctOf ["/", "/="] then
      reread fun newline cs => readRegex newline (cs.drop 1)
      advance
      return .other
    else if t.isPunct "<" && (← language).jsx then
      rules .jsx
      return .other
    else if t.isPunct "@" then
      let _ ← decorators rules
      let _ ← classRest rules
      return .other
    else reject
  | .name =>
    if t.isWordOf ["this", "null", "true", "false"] then
      takeWord
      return .other
    else if t.isWord "function" then functionExpression rules false
    else if t.isWord "class" then
      let _ ← classRest rules
      return .other
    else if t.isWord "new" then newExpression rules
    else if t.isWord "async" && (← nextIs fun n => !n.newline && n.isWord "function") then
      takeWord
      functionExpression rules true
    else return .name (← identifier)
  | _ => reject

/-! ## Operators -/

/-- The operators that stand before their operand. -/
def isPrefixOperator (t : Token) : Bool :=
  t.isPunctOf ["+", "-", "~", "!"] || t.isWordOf ["typeof", "void", "delete"]

/-- Whether a token on the same line tells that `await` or `yield` before it is meant as an
operator. -/
def startsOperand (t : Token) : Bool :=
  !t.newline && (t.kind == .name || t.kind == .number || t.kind == .bigint || t.kind == .string)

/-- Whether a waiting operator stands here. -/
def isAwait : Parser Bool := do
  if ← isAtWord "await" then
    if (← read).awaitAllowed then return true
    nextIs startsOperand
  else return false

/-- Requires that an expression can be assigned a single value. -/
def requireSimpleTarget (e : Expr) : Parser Unit := require e.isSimpleTarget

/-- An operand with the operators that change its value. -/
def update (rules : Rules) : Parser Expr := do
  if ← isAtOneOf ["++", "--"] then
    advance
    let e ← rules .simpleUnary
    requireSimpleTarget e
    return .other
  if (← isAt "<") && (← language).jsx then
    rules .jsx
    return .other
  let e ← rules .leftHand
  let t ← token
  if t.isPunctOf ["++", "--"] && !t.newline then
    requireSimpleTarget e
    advance
    return .other
  return e

/-- An operand with the operators before it. -/
def simpleUnary (rules : Rules) : Parser Expr := do
  let t ← token
  if isPrefixOperator t then
    if t.kind == .name then takeWord else advance
    let _ ← rules .simpleUnary
    return .unary
  if ← isAwait then
    require (← read).awaitAllowed
    takeWord
    let _ ← rules .simpleUnary
    return .unary
  let lang ← language
  if t.isPunct "<" && lang.typed && !lang.jsx then
    advance
    rules .type
    expect ">"
    return .cast (← rules .simpleUnary)
  update rules

/-- An operand of a binary operation. A prefix operator does not bind as tightly as a
power. -/
def operand (rules : Rules) : Parser Expr := do
  let t ← token
  let e ← simpleUnary rules
  match e with
  | .unary =>
    require (!(← isAt "**"))
    return e
  | .cast _ =>
    require (!(t.isPunct "<" && (← isAt "**")))
    return e
  | _ => return e

/-- Whether a logical operation other than `??` stands without parentheses. -/
def isOtherLogical : Expr → Bool
  | .logical coalescing => !coalescing
  | _ => false

/-- Follows binary operators that bind tighter than the given strength. -/
def binaryRest (rules : Rules) (strength : Nat) (start : Expr) : Parser Expr :=
  loop start fun left => do
    let c ← read
    let t ← operatorToken
    if c.language.typed && t.isWordOf ["as", "satisfies"] then
      if t.newline || 8 ≤ strength then return .inr left
      takeWord
      rules .type
      return .inl (.cast left)
    match strength? t with
    | none => return .inr left
    | some s =>
      -- Powers group to the right, all others to the left.
      let stops := if s == 12 then s < strength else s ≤ strength
      if stops || (t.isWord "in" && !c.inOperator) then return .inr left
      takeOperator
      let right ← rules (.binary s)
      if t.isPunct "??" then
        require (!(isOtherLogical left || isOtherLogical right))
        return .inl (.logical true)
      else if t.isPunctOf ["||", "&&"] then return .inl (.logical false)
      else return .inl .other

def binary (rules : Rules) (strength : Nat) : Parser Expr := do
  if (← isAtKind .privateName) && (← read).inOperator then
    advance
    require (← isAtWord "in")
    takeWord
    let right ← rules (.binary 8)
    match right with
    | .privateTest => reject
    | _ => binaryRest rules strength .privateTest
  else
    let left ← operand rules
    binaryRest rules strength left

def assignmentOperators : List String :=
  ["=", "+=", "-=", "*=", "/=", "%=", "**=", "<<=", ">>=", ">>>=", "&=", "^=", "|=", "&&=",
   "||=", "??="]

/-- What follows the word `yield`. -/
def yieldRest (rules : Rules) : Parser Unit := do
  let t ← token
  if t.newline then return ()
  if ← eat "*" then
    let _ ← rules (.assignment true)
  else if !(t.kind == .eof || t.isPunctOf [")", "]", "\x7d", ",", ";", ":"] || t.isWord "in") then
    let _ ← rules (.assignment true)

/-- The two branches of a conditional expression after its condition, if it is one. -/
def conditionalRest (rules : Rules) (arrowType : Bool) (test : Expr) : Parser Expr := do
  if ← eat "?" then
    let _ ← withIn true (rules (.assignment false))
    expect ":"
    let _ ← rules (.assignment arrowType)
    return .other
  else return test

def assignment (rules : Rules) (arrowType : Bool) : Parser Expr := do
  if ← isAtWord "yield" then
    if (← read).yieldAllowed then
      takeWord
      yieldRest rules
      return .other
    -- Outside of a generator `yield` is at best a name.
    require (!(← nextIs startsOperand))
  if let some e := ← arrowFunction? rules arrowType then return e
  if let some e := ← asyncArrow? rules arrowType then return e
  let left ← rules (.binary 0)
  let t ← operatorToken
  if t.isPunct "=>" then
    match left with
    | .name _ =>
      arrow
      arrowBody rules false arrowType
      return .other
    | _ => reject
  if t.isPunctOf assignmentOperators then
    let isPlain := t.isPunct "="
    if isPlain then
      match left.target? with
      | some places => settle places
      | none => reject
    else requireSimpleTarget left
    takeOperator
    let _ ← rules (.assignment arrowType)
    return .assign isPlain left
  conditionalRest rules arrowType left

/-- Expressions between commas. -/
def expression (rules : Rules) : Parser Expr := do
  let exprs ← commaSeparated (rules (.assignment true))
  return match exprs with
    | [e] => e
    | _ => .other

end ModuleGraph.Source.Parser
