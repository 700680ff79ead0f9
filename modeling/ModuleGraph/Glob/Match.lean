import ModuleGraph.Glob.Regex

set_option autoImplicit false

/-! # Matching globs

A text is matched unit by unit, where the units are the bytes of its UTF-8 form: `?` and a
class stand for one unit, so a character beyond ASCII is more than one of them.

What an item can take from the start of a text is given by the list of what it can leave
(`GlobToken.leaves`). A glob matches a text when it can leave nothing of it.
-/

namespace ModuleGraph

namespace Glob

def textUnits (s : String) : Units := s.toList.flatMap unitsOf

/-- A text and everything it can end in. -/
def suffixes : Units → List Units
  | [] => [[]]
  | u :: rest => (u :: rest) :: suffixes rest

/-- What is left of a text when units other than a slash are taken from its start. -/
def withinSegment : Units → List Units
  | [] => [[]]
  | u :: rest => if u = slash then [u :: rest] else (u :: rest) :: withinSegment rest

/-- What follows each slash of a text. -/
def afterSlashes : Units → List Units
  | [] => []
  | u :: rest => if u = slash then rest :: afterSlashes rest else afterSlashes rest

def strip? : Units → Units → Option Units
  | [], text => some text
  | _ :: _, [] => none
  | u :: us, v :: text => if u = v then strip? us text else none

def inRanges (ranges : List (Char × Char)) (u : UInt8) : Bool :=
  ranges.any fun (low, high) => (unitRanges low high).any fun (a, b) => a ≤ u && u ≤ b

/-- Of several ends of one text, keeps one of each length. -/
def distinct (rests : List Units) : List Units :=
  rests.foldr (fun r acc => if acc.any (·.length == r.length) then acc else r :: acc) []

mutual

/-- What an item can leave of a text. -/
def leaves : GlobToken → Units → List Units
  | .literal c, text => (strip? (unitsOf c) text).toList
  | .any, u :: text => if u = slash then [] else [text]
  | .any, [] => []
  | .star, text => withinSegment text
  | .leading, text => text :: afterSlashes text
  | .trailing, u :: text => if u = slash then suffixes text else []
  | .trailing, [] => []
  | .between, u :: text => if u = slash then text :: afterSlashes text else []
  | .between, [] => []
  | .oneOf negated ranges, u :: text => if inRanges ranges u != negated then [text] else []
  | .oneOf _ _, [] => []
  | .alternates branches, text => leavesAny false branches text

/-- What a list of items can leave of any of several texts, which are all ends of one text. -/
def leavesAll : List GlobToken → List Units → List Units
  | [], texts => texts
  | token :: tokens, texts =>
    leavesAll tokens (distinct (texts.flatMap fun text => leaves token text))

/-- What any of several branches can leave of a text. Branches without any expression do not
count, unless there are only such (`tried` tells that another branch was met): then the group is
empty and takes nothing. -/
def leavesAny (tried : Bool) : List (List GlobToken) → Units → List Units
  | [], text => if tried then [] else [text]
  | branch :: branches, text =>
    if (regexesAll branch).isEmpty then leavesAny tried branches text
    else leavesAll branch [text] ++ leavesAny true branches text

end

/-- Whether the whole of a text is matched. A glob that is only `**` matches every text. -/
def isMatch (glob : Glob) (text : Units) : Bool :=
  match glob with
  | [.leading] => true
  | glob => (leavesAll glob [text]).any (·.isEmpty)

def matchesPath (glob : Glob) (p : Path) : Bool := glob.isMatch (textUnits p.text)

end Glob

end ModuleGraph
