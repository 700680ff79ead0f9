import ModuleGraph.Json.Decimal

set_option autoImplicit false

/-! # JSON text, read as far as it goes

Reading a text gives a `Document` even when the text is broken: what was read before the
first fault is kept, and the fault stands where the reading stopped. A decoder that goes
through a document from left to right therefore meets a fault only after everything before
it, so the first problem of a text is the one that is reported.

Two faults do not stop the reading, because they matter only where the value is used: an
escape that is half of a surrogate pair, and a number that is out of range.

Main definitions: `Fault`, `Document`, `Document.read`.
-/

namespace ModuleGraph.Json

inductive Fault where
  /-- The text breaks the grammar. -/
  | malformed
  /-- The text ends too early. -/
  | cutShort
deriving DecidableEq, Repr, Inhabited

/-- A text that uses only whole characters, or the fault of using it as a text. -/
abbrev Reading := Except Fault String

/-- A JSON text as far as it could be read. -/
inductive Document where
  | null
  | bool (value : Bool)
  | number (value : Decimal)
  | text (value : Reading)
  /-- The items up to the closing bracket, or up to the fault that stands in its place. -/
  | array (items : List Document) (stop : Option Fault)
  /-- The members up to the closing brace, or up to the fault that stands in its place. -/
  | object (members : List (Reading × Document)) (stop : Option Fault)
  /-- No value could be read. -/
  | fault (cause : Fault)
deriving Inhabited

namespace Document

/-- The characters that may stand between two JSON tokens. -/
def isBlank (c : Char) : Bool := c == ' ' || c == '\n' || c == '\t' || c == '\r'

def hexDigit? (c : Char) : Option Nat :=
  if '0' ≤ c ∧ c ≤ '9' then some (c.toNat - 48)
  else if 'a' ≤ c ∧ c ≤ 'f' then some (c.toNat - 87)
  else if 'A' ≤ c ∧ c ≤ 'F' then some (c.toNat - 55)
  else none

/-- The value of hexadecimal digits, most significant first. -/
def hexValue? (cs : List Char) : Option Nat :=
  cs.foldl (fun acc c => acc.bind fun n => (hexDigit? c).map (16 * n + ·)) (some 0)

/-- The first half of a surrogate pair. -/
def isHighHalf (n : Nat) : Bool := 0xD800 ≤ n && n < 0xDC00

def isLowHalf (n : Nat) : Bool := 0xDC00 ≤ n && n < 0xE000

/-- The character that a surrogate pair stands for. -/
def joinHalves (high low : Nat) : Char :=
  Char.ofNat (0x10000 + (high - 0xD800) * 0x400 + (low - 0xDC00))

/-- The character behind a backslash, other than `u`. -/
def simpleEscape? : Char → Option Char
  | '"' => some '"'
  | '\\' => some '\\'
  | '/' => some '/'
  | 'b' => some '\x08'
  | 'f' => some '\x0c'
  | 'n' => some '\n'
  | 'r' => some '\r'
  | 't' => some '\t'
  | _ => none

/-- Reads a string after its opening quote: the characters, last one first, whether they
are all whole, and the text after the closing quote. -/
def readString (acc : List Char) (whole : Bool) :
    List Char → Except Fault (Reading × List Char)
  | [] => .error .cutShort
  | '"' :: rest =>
    .ok (if whole then .ok (String.ofList acc.reverse) else .error .malformed, rest)
  | '\\' :: 'u' :: a :: b :: c :: d :: rest =>
    match hexValue? [a, b, c, d] with
    | none => .error .malformed
    | some high =>
      if isHighHalf high then
        match rest with
        | '\\' :: 'u' :: a' :: b' :: c' :: d' :: rest' =>
          match hexValue? [a', b', c', d'] with
          | none => .error .malformed
          | some low =>
            if isLowHalf low then readString (joinHalves high low :: acc) whole rest'
            else readString acc false rest'
        | rest => readString acc false rest
      else if isLowHalf high then readString acc false rest
      else readString (Char.ofNat high :: acc) whole rest
  | '\\' :: 'u' :: _ => .error .cutShort
  | '\\' :: c :: rest =>
    match simpleEscape? c with
    | some e => readString (e :: acc) whole rest
    | none => .error .malformed
  | '\\' :: [] => .error .cutShort
  | c :: rest => if c < ' ' then .error .malformed else readString (c :: acc) whole rest

/-- A fault for text that should go on with a digit. -/
def digitFault : List Char → Fault
  | [] => .cutShort
  | _ :: _ => .malformed

def digitsValue (cs : List Char) : Nat := cs.foldl (fun n c => 10 * n + (c.toNat - 48)) 0

/-- Reads the exponent of a number, if there is one, onto what was read before it. -/
def readExponent (negative : Bool) (digits : Nat) (places : Nat) (integral : Bool) :
    List Char → Except Fault (Decimal × List Char)
  | c :: rest =>
    if c == 'e' || c == 'E' then
      let (sign, rest) : Bool × List Char :=
        match rest with
        | '-' :: rest => (true, rest)
        | '+' :: rest => (false, rest)
        | rest => (false, rest)
      let power := rest.takeWhile Char.isDigit
      let after := rest.dropWhile Char.isDigit
      if power.isEmpty then .error (digitFault rest)
      else
        let e : Int := digitsValue power
        .ok (⟨negative, digits, (if sign then -e else e) - places, false⟩, after)
    else .ok (⟨negative, digits, -(places : Int), integral⟩, c :: rest)
  | [] => .ok (⟨negative, digits, -(places : Int), integral⟩, [])

/-- Reads a number after its sign. -/
def readUnsigned (negative : Bool) (cs : List Char) : Except Fault (Decimal × List Char) :=
  let whole := cs.takeWhile Char.isDigit
  let rest := cs.dropWhile Char.isDigit
  match whole with
  | [] => .error (digitFault cs)
  | '0' :: _ :: _ => .error .malformed
  | _ =>
    match rest with
    | '.' :: rest =>
      let places := rest.takeWhile Char.isDigit
      let after := rest.dropWhile Char.isDigit
      if places.isEmpty then .error (digitFault rest)
      else readExponent negative (digitsValue (whole ++ places)) places.length false after
    | rest => readExponent negative (digitsValue whole) 0 true rest

/-- Reads the rest of a word such as `true`. -/
def readWord (value : Document) : List Char → List Char → Except Fault (Document × List Char)
  | [], rest => .ok (value, rest)
  | _ :: _, [] => .error .cutShort
  | c :: word, d :: rest => if c = d then readWord value word rest else .error .malformed

/-- What was read, and the text that is left unless the reading stopped at a fault. -/
abbrev Progress := Document × Option (List Char)

/-- A scalar and the text after it, or the fault instead of it. -/
def scalar (r : Except Fault (Document × List Char)) : Progress :=
  match r with
  | .ok (d, rest) => (d, some rest)
  | .error f => (.fault f, none)

mutual

def readValue : Nat → List Char → Progress
  | 0, _ => (.fault .malformed, none)
  | fuel + 1, cs =>
    match cs.dropWhile isBlank with
    | [] => (.fault .cutShort, none)
    | 'n' :: rest => scalar (readWord .null ['u', 'l', 'l'] rest)
    | 't' :: rest => scalar (readWord (.bool true) ['r', 'u', 'e'] rest)
    | 'f' :: rest => scalar (readWord (.bool false) ['a', 'l', 's', 'e'] rest)
    | '"' :: rest => scalar ((readString [] true rest).map fun (s, r) => (.text s, r))
    | '-' :: rest => scalar ((readUnsigned true rest).map fun (n, r) => (.number n, r))
    | '[' :: rest =>
      match rest.dropWhile isBlank with
      | ']' :: rest => (.array [] none, some rest)
      | rest => readItems fuel [] rest
    | '\x7b' :: rest =>
      match rest.dropWhile isBlank with
      | '\x7d' :: rest => (.object [] none, some rest)
      | rest => readMembers fuel [] rest
    | c :: rest =>
      if c.isDigit then scalar ((readUnsigned false (c :: rest)).map fun (n, r) => (.number n, r))
      else (.fault .malformed, none)

/-- Reads the items of an array from the next item on; `acc` holds those before it, last
one first. -/
def readItems : Nat → List Document → List Char → Progress
  | 0, acc, _ => (.array acc.reverse (some .malformed), none)
  | fuel + 1, acc, cs =>
    match cs.dropWhile isBlank with
    | [] => (.array acc.reverse (some .cutShort), none)
    | ']' :: _ => (.array acc.reverse (some .malformed), none)
    | cs =>
      match readValue fuel cs with
      | (item, none) => (.array (item :: acc).reverse none, none)
      | (item, some rest) =>
        match rest.dropWhile isBlank with
        | ']' :: rest => (.array (item :: acc).reverse none, some rest)
        | ',' :: rest => readItems fuel (item :: acc) rest
        | [] => (.array (item :: acc).reverse (some .cutShort), none)
        | _ :: _ => (.array (item :: acc).reverse (some .malformed), none)

/-- Reads the members of an object from the next member on. -/
def readMembers : Nat → List (Reading × Document) → List Char → Progress
  | 0, acc, _ => (.object acc.reverse (some .malformed), none)
  | fuel + 1, acc, cs =>
    match cs.dropWhile isBlank with
    | [] => (.object acc.reverse (some .cutShort), none)
    | '"' :: rest =>
      match readString [] true rest with
      | .error f => (.object acc.reverse (some f), none)
      | .ok (key, rest) =>
        match rest.dropWhile isBlank with
        | ':' :: rest =>
          match readValue fuel rest with
          | (value, none) => (.object ((key, value) :: acc).reverse none, none)
          | (value, some rest) =>
            match rest.dropWhile isBlank with
            | '\x7d' :: rest => (.object ((key, value) :: acc).reverse none, some rest)
            | ',' :: rest => readMembers fuel ((key, value) :: acc) rest
            | [] => (.object ((key, value) :: acc).reverse (some .cutShort), none)
            | _ :: _ => (.object ((key, value) :: acc).reverse (some .malformed), none)
        | [] => (.object ((key, .fault .cutShort) :: acc).reverse none, none)
        | _ :: _ => (.object ((key, .fault .malformed) :: acc).reverse none, none)
    | _ :: _ => (.object acc.reverse (some .malformed), none)

end

/-- Reads a whole text: the value it starts with, and the fault of what follows, if any. -/
def read (text : String) : Document × Option Fault :=
  let cs := text.toList
  match readValue (2 * cs.length + 2) cs with
  | (value, none) => (value, none)
  | (value, some rest) =>
    (value, if (rest.dropWhile isBlank).isEmpty then none else some .malformed)

mutual

/-- The first fault of a value that is skipped: only the grammar counts. -/
def grammarFault? : Document → Option Fault
  | .array items stop => (itemsFault? items).or stop
  | .object members stop => (membersFault? members).or stop
  | .fault f => some f
  | .null | .bool _ | .number _ | .text _ => none

def itemsFault? : List Document → Option Fault
  | [] => none
  | d :: rest => d.grammarFault?.or (itemsFault? rest)

def membersFault? : List (Reading × Document) → Option Fault
  | [] => none
  | (_, d) :: rest => d.grammarFault?.or (membersFault? rest)

end

end Document

end ModuleGraph.Json
