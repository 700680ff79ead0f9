set_option autoImplicit false

/-! # Lines

A line ends with a line feed, and a carriage return before the line feed does not belong to
it. What follows the last line feed is a line too, unless it is empty. The functions here
work on any kind of items, since lines are cut out of texts and out of bytes.
-/

namespace ModuleGraph

variable {α : Type} [DecidableEq α]

/-- The lines that are ended by a line feed, and what is left behind the last of them. -/
def cutLines (feed : α) : List α → List (List α) × List α
  | [] => ([], [])
  | c :: rest =>
    let (lines, left) := cutLines feed rest
    if c = feed then ([] :: lines, left)
    else
      match lines with
      | [] => ([], c :: left)
      | line :: more => ((c :: line) :: more, left)

/-- A line without a carriage return at its end. -/
def dropReturn (carriageReturn : α) (line : List α) : List α :=
  if line.getLast? = some carriageReturn then line.dropLast else line

def linesOf (feed carriageReturn : α) (items : List α) : List (List α) :=
  let (lines, left) := cutLines feed items
  lines.map (dropReturn carriageReturn) ++ if left = [] then [] else [left]

def textLines (text : String) : List String :=
  (linesOf '\n' '\r' text.toList).map String.ofList

/-- The lines of some bytes, up to the first that is no text. -/
def byteLines (bytes : ByteArray) : List String :=
  let lines := linesOf 10 13 bytes.toList
  (lines.map fun line => String.fromUTF8? ⟨line.toArray⟩).takeWhile (·.isSome) |>.filterMap id

end ModuleGraph
