import ModuleGraph.Source.Token

set_option autoImplicit false

/-! # Reading tokens

The next token of a source depends on where the parser stands: a slash may start a regular
expression, a closing brace may go on with a template, and between JSX tags there is text.
So there is one reading function per place: `readToken`, `readRegex`, `readTemplate`,
`readJsxChild`, `readJsxName` and `readJsxString`. Each takes the source from a position on
and gives the token and the source after it, or nothing where the text is no token.
-/

namespace ModuleGraph.Source

/-! ## Blanks and comments -/

/-- Where the reading stands between two tokens. -/
inductive Gap where
  | blank
  | lineComment
  | blockComment
deriving DecidableEq, Repr

/-- Skips blanks and comments: whether a line ended among them, and what follows. In scripts
`<!--`, and `-->` at the start of a line, start comments too. A comment that is never closed
gives nothing. -/
def skipGap (script : Bool) : Gap → Bool → List Char → Option (Bool × List Char)
  | .blockComment, _, [] => none
  | _, newline, [] => some (newline, [])
  | .blank, newline, '/' :: '/' :: rest => skipGap script .lineComment newline rest
  | .blank, newline, '/' :: '*' :: rest => skipGap script .blockComment newline rest
  | .blank, newline, '<' :: '!' :: '-' :: '-' :: rest =>
    if script then skipGap script .lineComment newline rest
    else some (newline, '<' :: '!' :: '-' :: '-' :: rest)
  | .blank, newline, '-' :: '-' :: '>' :: rest =>
    if script && newline then skipGap script .lineComment newline rest
    else some (newline, '-' :: '-' :: '>' :: rest)
  | .blank, newline, c :: rest =>
    if isLineEnd c then skipGap script .blank true rest
    else if isBlank c then skipGap script .blank newline rest
    else some (newline, c :: rest)
  | .lineComment, newline, c :: rest =>
    if isLineEnd c then skipGap script .blank true rest
    else skipGap script .lineComment newline rest
  | .blockComment, newline, '*' :: '/' :: rest => skipGap script .blank newline rest
  | .blockComment, newline, c :: rest =>
    skipGap script .blockComment (newline || isLineEnd c) rest

/-! ## Escapes and names -/

/-- The number of an escape after its `\u`, and what follows. -/
def readCodePoint? : List Char → Option (Nat × List Char)
  | '\x7b' :: rest =>
    let digits := rest.takeWhile (isDigitIn 16)
    match digits, rest.dropWhile (isDigitIn 16) with
    | [], _ => none
    | _, '\x7d' :: after =>
      -- Leading zeros aside, no code point has more than six digits.
      let value := digitsValue 16 digits
      if value ≤ 0x10FFFF then some (value, after) else none
    | _, _ => none
  | a :: b :: c :: d :: rest =>
    if [a, b, c, d].all (isDigitIn 16) then some (digitsValue 16 [a, b, c, d], rest) else none
  | _ => none

/-- Whether a number is half of a surrogate pair, and so no character. -/
def isSurrogate (n : Nat) : Bool := 0xD800 ≤ n && n < 0xE000

/-- Reads the rest of a name: its characters, last one first, whether an escape was among
them, and what follows. -/
def readName (fuel : Nat) (acc : List Char) (escaped : Bool) (cs : List Char) :
    Option (List Char × Bool × List Char) :=
  match fuel, cs with
  | 0, _ => none
  | fuel + 1, '\\' :: 'u' :: rest =>
    match readCodePoint? rest with
    | some (n, after) =>
      let c := Char.ofNat n
      let fits := if acc.isEmpty then isNameStart c else isNamePart c
      if fits && !isSurrogate n then readName fuel (c :: acc) true after else none
    | none => none
  | _ + 1, '\\' :: _ => none
  | fuel + 1, c :: rest =>
    if (if acc.isEmpty then isNameStart c else isNamePart c) then
      readName fuel (c :: acc) escaped rest
    else some (acc, escaped, cs)
  | _ + 1, [] => some (acc, escaped, [])

/-! ## Numbers -/

/-- Skips digits that may be separated by single underscores, each between two digits. -/
def skipDigits (base : Nat) : List Char → Option (List Char)
  | '_' :: c :: rest => if isDigitIn base c then skipDigits base (c :: rest) else none
  | '_' :: [] => none
  | c :: rest => if isDigitIn base c then skipDigits base rest else some (c :: rest)
  | [] => some []

/-- A number may not touch a name or another digit. -/
def endNumber (kind : TokenKind) : List Char → Option (TokenKind × List Char)
  | c :: rest => if isNamePart c || c == '\\' then none else some (kind, c :: rest)
  | [] => some (kind, [])

/-- Skips an exponent, if there is one, and ends the number. -/
def readExponent : List Char → Option (TokenKind × List Char)
  | c :: rest =>
    if c == 'e' || c == 'E' then
      let rest :=
        match rest with
        | '+' :: rest => rest
        | '-' :: rest => rest
        | rest => rest
      match rest with
      | d :: _ => if d.isDigit then (skipDigits 10 rest).bind (endNumber .number) else none
      | [] => none
    else endNumber .number (c :: rest)
  | [] => some (.number, [])

/-- Skips the digits after a point, if there are any, and what may follow them. -/
def readFraction : List Char → Option (TokenKind × List Char)
  | c :: rest =>
    if c.isDigit then (skipDigits 10 (c :: rest)).bind readExponent else readExponent (c :: rest)
  | [] => some (.number, [])

def readBased (base : Nat) : List Char → Option (TokenKind × List Char)
  | c :: rest =>
    if isDigitIn base c then
      match skipDigits base rest with
      | some ('n' :: after) => endNumber .bigint after
      | some after => endNumber .number after
      | none => none
    else none
  | [] => none

/-- Reads what follows the leading zero of an old octal number; a digit above seven makes it
decimal, and only then it may have a fraction. -/
def readOldOctal (cs : List Char) : Option (TokenKind × List Char) :=
  let digits := cs.takeWhile Char.isDigit
  let rest := cs.dropWhile Char.isDigit
  if digits.all (isDigitIn 8) then endNumber .number rest
  else
    match rest with
    | '.' :: rest => readFraction rest
    | rest => readExponent rest

/-- Reads a number that starts with a digit. -/
def readNumber : List Char → Option (TokenKind × List Char)
  | '0' :: c :: rest =>
    if c == 'x' || c == 'X' then readBased 16 rest
    else if c == 'o' || c == 'O' then readBased 8 rest
    else if c == 'b' || c == 'B' then readBased 2 rest
    else if c == 'n' then endNumber .bigint rest
    else if c == '.' then readFraction rest
    else if c.isDigit then readOldOctal (c :: rest)
    else readExponent (c :: rest)
  | cs =>
    match skipDigits 10 cs with
    | some ('.' :: rest) => readFraction rest
    | some ('n' :: rest) => endNumber .bigint rest
    | some rest => readExponent rest
    | none => none

/-! ## Strings and templates -/

/-- A unit of a string's value: a character, or half of a surrogate pair. -/
inductive TextUnit where
  | char (c : Char)
  | half (n : Nat)
deriving DecidableEq, Repr

/-- Adds the unit of a `\uXXXX` escape; a low half joins a high half before it. -/
def pushHalf (n : Nat) (units : List TextUnit) : List TextUnit :=
  match units with
  | .half high :: rest =>
    if 0xD800 ≤ high ∧ high < 0xDC00 ∧ 0xDC00 ≤ n ∧ n < 0xE000 then
      .char (Char.ofNat (0x10000 + (high - 0xD800) * 0x400 + (n - 0xDC00))) :: rest
    else .half n :: units
  | _ => .half n :: units

/-- The unit of a code point, put in front of the units before it. -/
def pushCode (n : Nat) (units : List TextUnit) : List TextUnit :=
  if isSurrogate n then pushHalf n units else .char (Char.ofNat n) :: units

def fourDigits (n : Nat) : List Char :=
  let digits := Nat.toDigits 16 n
  List.replicate (4 - digits.length) '0' ++ digits

/-- Whether a string holds half a surrogate pair. -/
def hasHalf (units : List TextUnit) : Bool :=
  units.any fun u => match u with
    | .half _ => true
    | .char _ => false

/-- The text of units. A half is written as the replacement character with its four digits,
and then so is the replacement character itself. -/
def unitsText (units : List TextUnit) : String :=
  let marked := hasHalf units
  String.ofList (units.flatMap fun u =>
    match u with
    | .char c => if marked && c == '\ufffd' then c :: fourDigits 0xFFFD else [c]
    | .half n => '\ufffd' :: fourDigits n)

/-- The value of an old octal escape: up to three digits, and at most two after a digit
above three. -/
def readOctalEscape (cs : List Char) : Nat × List Char :=
  match cs with
  | a :: rest =>
    let limit := if a ≤ '3' then 2 else 1
    let more := (rest.take limit).takeWhile (isDigitIn 8)
    (digitsValue 8 (a :: more), rest.drop more.length)
  | [] => (0, [])

/-- What an escape in a string adds to its value, and what follows. Octal escapes are read
only where they are allowed. -/
def readEscape (octal : Bool) (units : List TextUnit) :
    List Char → Option (List TextUnit × List Char)
  | [] => none
  | 'u' :: rest =>
    (readCodePoint? rest).map fun (n, after) =>
      match rest with
      -- A code point in braces stands alone.
      | '\x7b' :: _ =>
        ((if isSurrogate n then .half n else .char (Char.ofNat n)) :: units, after)
      | _ => (pushCode n units, after)
  | 'x' :: a :: b :: rest =>
    if isDigitIn 16 a && isDigitIn 16 b then
      some (.char (Char.ofNat (digitsValue 16 [a, b])) :: units, rest)
    else none
  | 'x' :: _ => none
  | 'n' :: rest => some (.char '\n' :: units, rest)
  | 't' :: rest => some (.char '\t' :: units, rest)
  | 'r' :: rest => some (.char '\r' :: units, rest)
  | 'b' :: rest => some (.char '\x08' :: units, rest)
  | 'f' :: rest => some (.char '\x0c' :: units, rest)
  | 'v' :: rest => some (.char '\x0b' :: units, rest)
  | '\r' :: '\n' :: rest => some (units, rest)
  | c :: rest =>
    if isLineEnd c then some (units, rest)
    else if isDigitIn 8 c then
      let lone := c == '0' && (match rest with
        | d :: _ => !d.isDigit
        | [] => true)
      if lone then some (.char '\x00' :: units, rest)
      else if octal then
        let (n, after) := readOctalEscape (c :: rest)
        some (.char (Char.ofNat n) :: units, after)
      else none
    else if c.isDigit && !octal then none
    else some (.char c :: units, rest)

def readString (quote : Char) :
    Nat → List TextUnit → List Char → Option (List TextUnit × List Char)
  | 0, _, _ => none
  | _ + 1, _, [] => none
  | fuel + 1, units, c :: rest =>
    if c == quote then some (units.reverse, rest)
    else if c == '\\' then
      match readEscape true units rest with
      | some (units, after) => readString quote fuel units after
      | none => none
    else if c == '\n' || c == '\r' then none
    else readString quote fuel (.char c :: units) rest

/-- Reads a piece of a template up to its end or to the next `${`: which of the two it was,
whether all escapes have a meaning, and what follows. -/
def readTemplatePiece : Nat → Bool → List Char → Option (TokenKind × Bool × List Char)
  | 0, _, _ => none
  | _ + 1, _, [] => none
  | _ + 1, sound, '\u0060' :: rest => some (.templateEnd, sound, rest)
  | _ + 1, sound, '$' :: '\x7b' :: rest => some (.templateOpen, sound, rest)
  | fuel + 1, sound, '\\' :: rest =>
    match readEscape false [] rest with
    | some (_, after) => readTemplatePiece fuel sound after
    | none => readTemplatePiece fuel false (rest.drop 1)
  | fuel + 1, sound, _ :: rest => readTemplatePiece fuel sound rest

def readTemplate (newline : Bool) (cs : List Char) : Option (Token × List Char) :=
  (readTemplatePiece (cs.length + 1) true cs).map fun (kind, sound, rest) =>
    (⟨kind, "", newline, false, !sound, cs⟩, rest)

/-! ## Regular expressions -/

/-- Skips the body of a regular expression up to its closing slash. -/
def skipRegexBody (inClass : Bool) : List Char → Option (List Char)
  | [] => none
  | '\\' :: c :: rest => if isLineEnd c then none else skipRegexBody inClass rest
  | '\\' :: [] => none
  | c :: rest =>
    if isLineEnd c then none
    else if inClass then skipRegexBody (c != ']') rest
    else if c == '/' then some rest
    else skipRegexBody (c == '[') rest

def regexFlags : List Char := ['g', 'i', 'm', 's', 'u', 'y', 'd', 'v']

/-- Reads a regular expression after its opening slash. Its flags must be known and may not
be repeated; its body is not looked at. -/
def readRegex (newline : Bool) (cs : List Char) : Option (Token × List Char) :=
  match skipRegexBody false cs with
  | none => none
  | some rest =>
    let isFlag (c : Char) : Bool := c.isAlphanum || c == '$' || c == '_'
    let flags := rest.takeWhile isFlag
    if flags.all regexFlags.contains && flags.eraseDups.length == flags.length then
      some (⟨.regex, "", newline, false, false, cs⟩, rest.dropWhile isFlag)
    else none

/-! ## JSX -/

/-- Reads what stands between two JSX tags: text up to the next brace or tag, or that brace
or angle itself. Text may hold neither a closing brace nor a closing angle. -/
def readJsxChild (cs : List Char) : Option (Token × List Char) :=
  match cs with
  | [] => some (⟨.eof, "", false, false, false, cs⟩, [])
  | '<' :: rest => some (⟨.punct, "<", false, false, false, cs⟩, rest)
  | '\x7b' :: rest => some (⟨.punct, "\x7b", false, false, false, cs⟩, rest)
  | cs =>
    let isText (c : Char) : Bool := c != '<' && c != '\x7b'
    if (cs.takeWhile isText).any fun c => c == '>' || c == '\x7d' then none
    else some (⟨.jsxText, "", false, false, false, cs⟩, cs.dropWhile isText)

/-- Reads the rest of a JSX name, which may hold hyphens. -/
def readJsxName (cs : List Char) : List Char × List Char :=
  let isPart (c : Char) : Bool := isNamePart c || c == '-'
  (cs.takeWhile isPart, cs.dropWhile isPart)

/-- Reads the value of a JSX attribute after its opening quote; nothing in it is escaped. -/
def readJsxString (quote : Char) (cs : List Char) : Option (Token × List Char) :=
  match cs.dropWhile (· != quote) with
  | _ :: rest => some (⟨.string, "", false, false, false, cs⟩, rest)
  | [] => none

/-! ## All other tokens -/

/-- The operators and brackets, longer ones before their beginnings. A closing angle is
always read alone, because it may end a list of types. -/
def operators : List String :=
  ["...", "=>", "===", "!==", "==", "!=", "**=", "**", "++", "+=", "--", "-=", "*=", "/=", "%=",
   "<<=", "<<", "<=", "&&=", "&&", "&=", "||=", "||", "|=", "^=", "??=", "??",
   "\x7b", "\x7d", "(", ")", "[", "]", ".", ";", ",", "<", ">", "+", "-", "*", "/", "%", "&",
   "|", "^", "!", "~", "?", ":", "=", "@"]

def readOperator? (cs : List Char) : Option (String × List Char) :=
  (operators.find? fun op => op.toList.isPrefixOf cs).map fun op => (op, cs.drop op.length)

/-- Reads the token that starts at a position without blanks. -/
def readTokenHere (newline : Bool) (cs : List Char) : Option (Token × List Char) :=
  let token (kind : TokenKind) (text : String) : Token := ⟨kind, text, newline, false, false, cs⟩
  match cs with
  | [] => some (token .eof "", [])
  | '"' :: rest =>
    (readString '"' (rest.length + 1) [] rest).map fun (units, after) =>
      (⟨.string, unitsText units, newline, false, hasHalf units, cs⟩, after)
  | '\'' :: rest =>
    (readString '\'' (rest.length + 1) [] rest).map fun (units, after) =>
      (⟨.string, unitsText units, newline, false, hasHalf units, cs⟩, after)
  | '\u0060' :: rest =>
    (readTemplate newline rest).map fun (t, after) => ({ t with source := cs }, after)
  | '#' :: rest =>
    match readName (rest.length + 1) [] false rest with
    | some ([], _, _) => none
    | some (name, escaped, after) =>
      some (⟨.privateName, String.ofList name.reverse, newline, escaped, false, cs⟩, after)
    | none => none
  | '?' :: '.' :: c :: rest =>
    -- Before a digit the point belongs to a number.
    if c.isDigit then some (token .punct "?", '.' :: c :: rest)
    else some (token .punct "?.", c :: rest)
  | '?' :: '.' :: [] => some (token .punct "?.", [])
  | '.' :: c :: rest =>
    if c.isDigit then
      (readFraction (c :: rest)).map fun (kind, after) => (token kind "", after)
    else (readOperator? cs).map fun (op, after) => (token .punct op, after)
  | c :: _ =>
    if c.isDigit then (readNumber cs).map fun (kind, after) => (token kind "", after)
    else if isNameStart c || c == '\\' then
      match readName (cs.length + 1) [] false cs with
      | some ([], _, _) => none
      | some (name, escaped, after) =>
        some (⟨.name, String.ofList name.reverse, newline, escaped, false, cs⟩, after)
      | none => none
    else (readOperator? cs).map fun (op, after) => (token .punct op, after)

def readToken (script newline : Bool) (cs : List Char) : Option (Token × List Char) :=
  match skipGap script .blank newline cs with
  | some (newline, rest) => readTokenHere newline rest
  | none => none

/-- The operators that a closing angle may be the start of, longest first. -/
def angleOperators : List String := [">>>=", ">>>", ">>=", ">>", ">="]

/-- A source without its byte order mark and its first line if that starts with `#!`. -/
def dropHashbang (cs : List Char) : List Char :=
  let cs :=
    match cs with
    | '\ufeff' :: rest => rest
    | cs => cs
  match cs with
  | '#' :: '!' :: rest => rest.dropWhile (!isLineEnd ·)
  | cs => cs

end ModuleGraph.Source
