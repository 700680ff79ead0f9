import ModuleGraph.Source.Letters

set_option autoImplicit false

/-! # Classes of characters in source text

Line ends, blanks, and the characters of identifiers.
-/

namespace ModuleGraph.Source

/-- The four characters that end a line. -/
def isLineEnd (c : Char) : Bool :=
  c == '\n' || c == '\r' || c == '\u2028' || c == '\u2029'

/-- Blanks inside a line: tabs, spaces of every width, and the byte order mark. -/
def isBlank (c : Char) : Bool :=
  let n := c.toNat
  c == ' ' || c == '\t' || n == 0x0B || n == 0x0C || n == 0xA0 || n == 0x85 || n == 0x1680 ||
    (0x2000 ≤ n && n ≤ 0x200B) || n == 0x202F || n == 0x205F || n == 0x3000 || n == 0xFEFF

def isNameStart (c : Char) : Bool :=
  c.isAlpha || c == '$' || c == '_' || (c.toNat ≥ 0x80 && inBlocks startBlocks c.toNat)

def isNamePart (c : Char) : Bool :=
  isNameStart c || c.isDigit ||
    (c.toNat ≥ 0x80 &&
      (c.toNat == 0x200C || c.toNat == 0x200D || inBlocks continueBlocks c.toNat))

/-- The value of a digit in a base up to sixteen. -/
def digitValue? (base : Nat) (c : Char) : Option Nat :=
  let value? :=
    if c.isDigit then some (c.toNat - 48)
    else if 'a' ≤ c ∧ c ≤ 'f' then some (c.toNat - 87)
    else if 'A' ≤ c ∧ c ≤ 'F' then some (c.toNat - 55)
    else none
  value?.filter (· < base)

def isDigitIn (base : Nat) (c : Char) : Bool := (digitValue? base c).isSome

def digitsValue (base : Nat) (cs : List Char) : Nat :=
  cs.foldl (fun n c => base * n + (digitValue? base c).getD 0) 0

end ModuleGraph.Source
