import ModuleGraph.Path.Basic

set_option autoImplicit false

/-! # Specifiers

A specifier is a path with a query and a fragment behind it (`Specifier.parse?`), and a path
that is bare starts with the name of a package (`splitPackage`).
-/

namespace ModuleGraph

/-- The parts of a specifier; the marks of query and fragment belong to them. -/
structure Specifier where
  path : String
  query : Option String := none
  fragment : Option String := none
deriving DecidableEq, Repr, Inhabited

namespace Specifier

/-- Cuts a text before its first fragment. A `#` behind a zero character does not start
one. -/
def cutFragment (before : Option Char) : List Char → List Char × List Char
  | [] => ([], [])
  | c :: rest =>
    if c = '#' ∧ before ≠ some '\x00' then ([], c :: rest)
    else
      let (text, fragment) := cutFragment (some c) rest
      (c :: text, fragment)

/-- Drops the zero characters before a `#`. -/
def unescape : List Char → List Char
  | '\x00' :: '#' :: rest => '#' :: unescape rest
  | c :: rest => c :: unescape rest
  | [] => []

def part? (cs : List Char) : Option String :=
  if cs = [] then none else some (String.ofList cs)

/-- The first character of a text when it cannot start a query or a fragment, and the
rest. -/
def splitFirst : List Char → List Char × List Char
  | c :: rest => if c = '/' ∨ c = '.' ∨ c = '#' then ([c], rest) else ([], c :: rest)
  | [] => ([], [])

/-- The parts of a specifier; without a path it is none. -/
def parse? (specifier : String) : Option Specifier :=
  let (first, rest) := splitFirst specifier.toList
  let (text, fragment) := cutFragment specifier.toList.head? rest
  let path := first ++ unescape (text.takeWhile (· != '?'))
  if path = [] then none
  else some ⟨String.ofList path, part? (text.dropWhile (· != '?')), part? fragment⟩

end Specifier

/-- The name of the package that a bare specifier starts with, and what follows it. The name
of a package in a scope has two parts. -/
def splitPackage (specifier : String) : String × String :=
  let cs := specifier.toList
  let name := cs.takeWhile (· != '/')
  let rest := cs.dropWhile (· != '/')
  match name, rest with
  | '@' :: _, '/' :: inner =>
    (String.ofList (name ++ '/' :: inner.takeWhile (· != '/')),
     String.ofList (inner.dropWhile (· != '/')))
  | _, _ => (String.ofList name, String.ofList rest)

/-- What follows a start of a text, if the text starts so. -/
def stripStart? (start text : List Char) : Option (List Char) :=
  match start, text with
  | [], text => some text
  | a :: start, b :: text => if a = b then stripStart? start text else none
  | _ :: _, [] => none

/-- What comes before an end of a text, if the text ends so. -/
def stripEnd? (ending text : List Char) : Option (List Char) :=
  (stripStart? ending.reverse text.reverse).map List.reverse

/-- Whether a character divides the parts of a specifier. -/
def isDivider (c : Char) : Bool := c == '/' || c == '\\'

/-- What follows a name at the start of a specifier: nothing, or more from a slash on. -/
def stripName? (name specifier : String) : Option (List Char) :=
  match stripStart? name.toList specifier.toList with
  | some [] => some []
  | some (c :: rest) => if isDivider c then some (c :: rest) else none
  | none => none

namespace Path

/-- Goes one step on from a path, without looking at any disk. -/
def advance (p : Path) : Component → Path
  | .root => ⟨"/"⟩
  | .here => p
  | .up => p.parent?.getD p
  | .name s => p.join ⟨s⟩

/-- The path without any `.` and `..`; what would go above its start is dropped. -/
def normalize (p : Path) : Path := p.components.foldl advance ⟨""⟩

/-- `p.normalizeWith q` is `q` read from `p`, where each `..` of `q` drops a name. -/
def normalizeWith (p q : Path) : Path :=
  if q.isAbsolute || q.components.isEmpty then q else q.components.foldl advance p

/-- The given number of directories from a path upwards, as far as there are any. -/
def ancestorsUpTo : Nat → Path → List Path
  | 0, _ => []
  | n + 1, p =>
    p :: match p.parent? with
      | some q => ancestorsUpTo n q
      | none => []

/-- A path and all directories above it. A parent is always shorter. -/
def ancestors (p : Path) : List Path := ancestorsUpTo (p.text.length + 1) p

end Path

end ModuleGraph
