set_option autoImplicit false

/-! # Numbers as they are written in JSON

A number is kept exactly, as a whole number of digits times a power of ten. Two questions
are asked of it: whether it is an integer of at most 64 bits, and otherwise which double it
is nearest to and with how few digits that double can be written.

Main definitions: `Decimal`, `Decimal.toDouble?` (nearest double, ties to even),
`Double.shortest` (the fewest digits that read back, and of those the nearest) and
`Decimal.describe?`.
-/

namespace ModuleGraph.Json

/-- The number `± digits · 10 ^ exponent`; `integral` when no point and no exponent is
written. -/
structure Decimal where
  negative : Bool
  digits : Nat
  exponent : Int
  integral : Bool
deriving DecidableEq, Repr, Inhabited

/-- The positive double `mantissa · 2 ^ exponent`, with the largest possible mantissa. -/
structure Double where
  mantissa : Nat
  exponent : Int
deriving DecidableEq, Repr, Inhabited

/-- The quotient rounded to the nearest whole number, a half to the even one. -/
def roundDiv (num den : Nat) : Nat :=
  let q := num / den
  let twice := 2 * (num % den)
  if twice > den ∨ (twice = den ∧ q % 2 = 1) then q + 1 else q

/-- A fraction `num / den` times a power of the base, as a fraction again. -/
def scale (base : Nat) (power : Int) (num den : Nat) : Nat × Nat :=
  if power ≥ 0 then (num * base.pow power.toNat, den)
  else (num, den * base.pow (-power).toNat)

/-- The double nearest to a positive fraction, none when it is too large. -/
def nearestDouble? (num den : Nat) : Option Double :=
  -- The power that leaves 53 binary digits, never below that of the smallest doubles.
  let guess : Int := (Nat.log2 num : Int) - (Nat.log2 den : Int) - 52
  let atPower (q : Int) : Nat :=
    let (n, d) := scale 2 (-q) num den
    roundDiv n d
  let floorAt (q : Int) : Nat :=
    let (n, d) := scale 2 (-q) num den
    n / d
  let q := if floorAt guess < Nat.pow 2 52 then guess - 1 else guess
  let q := max q (-1074)
  let m := atPower q
  let result : Double := if m = Nat.pow 2 53 then ⟨Nat.pow 2 52, q + 1⟩ else ⟨m, q⟩
  if result.exponent > 971 then none else some result

namespace Double

/-- Whether a fraction rounds to the double: it lies within half a step of it. -/
def readsBack (d : Double) (num den : Nat) : Bool :=
  nearestDouble? num den == some d

/-- The candidates with digits on the grid `10 ^ power`: the neighbours of the double. -/
def neighbours (d : Double) (power : Int) : List Nat :=
  let (n, k) := scale 2 d.exponent d.mantissa 1
  let (n, k) := scale 10 (-power) n k
  let low := n / k
  -- The nearer neighbour is tried first, so that of two hits it wins.
  if 2 * (n % k) ≤ k then [low, low + 1] else [low + 1, low]

/-- Looks for a reading of the double on ever finer decimal grids. -/
def shortestFrom (d : Double) : Nat → Int → Nat × Int
  | 0, power => (((d.neighbours power).head?).getD 0, power)
  | fuel + 1, power =>
    let hit := (d.neighbours power).find? fun digits =>
      let (n, k) := scale 10 power digits 1
      digits != 0 && d.readsBack n k
    match hit with
    | some digits => (digits, power)
    | none => shortestFrom d fuel (power - 1)

/-- The fewest digits, and the power of ten they stand for, that read back as the double. -/
def shortest (d : Double) : Nat × Int :=
  -- No double reaches `10 ^ 309`, and 17 digits always suffice.
  shortestFrom d 640 309

end Double

/-- Writes `digits · 10 ^ power` without an exponent and with at least one place. -/
def positional (digits : Nat) (power : Int) : String :=
  let text := (Nat.toDigits 10 digits)
  if power ≥ 0 then
    String.ofList (text ++ List.replicate power.toNat '0' ++ ['.', '0'])
  else
    let places := (-power).toNat
    let padded := List.replicate (places + 1 - text.length) '0' ++ text
    let point := padded.length - places
    String.ofList (padded.take point ++ '.' :: padded.drop point)

namespace Decimal

def fraction (d : Decimal) : Nat × Nat := scale 10 d.exponent d.digits 1

/-- The nearest double without its sign; `some none` is zero, and `none` is too large. -/
def toDouble? (d : Decimal) : Option (Option Double) :=
  let size : Int := (Nat.toDigits 10 d.digits).length + d.exponent
  if d.digits = 0 ∨ size < -400 then some none
  else if size > 400 then none
  else
    let (n, k) := d.fraction
    (nearestDouble? n k).map fun x => if x.mantissa = 0 then none else some x

/-- Whether the number is a whole number that fits into 64 bits; a negative zero is not. -/
def isWord (d : Decimal) : Bool :=
  d.integral &&
    (if d.negative then d.digits ≤ Nat.pow 2 63 && d.digits != 0 else d.digits < Nat.pow 2 64)

/-- How a number is named in a message about it, none when it is too large for a double. -/
def describe? (d : Decimal) : Option String :=
  let sign := if d.negative then "-" else ""
  if d.isWord then some s!"integer `{sign}{d.digits}`"
  else
    d.toDouble?.map fun x =>
      let body :=
        match x with
        | none => "0.0"
        | some x => let (digits, power) := x.shortest; positional digits power
      s!"floating point `{sign}{body}`"

end Decimal

end ModuleGraph.Json
