set_option autoImplicit false

/-! # Paths

A path is kept as the text it was written with, and is compared by what the text means.
The meaning is the list of `Path.components`: a root, a leading `.`, the steps `..`, and
names. Repeated and trailing slashes and inner `.` steps leave no component, so `/a//b/`
and `/a/./b` name the same place as `/a/b` (`Path.same`).

Main definitions: `Component`, `Path.components`, `Path.compare` (the order in which maps
and sets list their paths), `Path.join`, `Path.parent?`, `Path.fileName?` and
`Path.extension?`.
-/

namespace ModuleGraph

/-- A path, as the text it was written with. -/
structure Path where
  text : String
deriving DecidableEq, Repr, Inhabited

/-- One step of a path. -/
inductive Component where
  /-- The leading `/` of an absolute path. -/
  | root
  /-- The leading `.` of a relative path. -/
  | here
  /-- A `..` step. -/
  | up
  /-- An ordinary name. -/
  | name (text : String)
deriving DecidableEq, Repr, Inhabited

namespace Component

/-- Roots come first, then `.`, then `..`, then names. -/
def rank : Component → Nat
  | root => 0
  | here => 1
  | up => 2
  | name _ => 3

/-- The order of components: by rank, and names among each other by their characters. -/
def compare : Component → Component → Ordering
  | name a, name b => Ord.compare a b
  | a, b => Ord.compare a.rank b.rank

def text : Component → String
  | root => "/"
  | here => "."
  | up => ".."
  | name s => s

end Component

/-- The pieces of a text between its slashes; there is always at least one. -/
def splitSlash : List Char → List (List Char)
  | [] => [[]]
  | c :: rest =>
    if c = '/' then [] :: splitSlash rest
    else
      match splitSlash rest with
      | [] => [[c]]
      | piece :: pieces => (c :: piece) :: pieces

/-- The component that a piece between two slashes stands for, if any. -/
def Component.ofPiece? (piece : List Char) : Option Component :=
  if piece = [] ∨ piece = ['.'] then none
  else if piece = ['.', '.'] then some .up
  else some (.name (String.ofList piece))

namespace Path

/-- A path is absolute when its text starts with a slash. -/
def isAbsolute (p : Path) : Bool :=
  match p.text.toList with
  | '/' :: _ => true
  | _ => false

def componentsOf (cs : List Char) : List Component :=
  match cs with
  | '/' :: rest => .root :: (splitSlash rest).filterMap Component.ofPiece?
  | cs =>
    match splitSlash cs with
    | ['.'] :: pieces => .here :: pieces.filterMap Component.ofPiece?
    | pieces => pieces.filterMap Component.ofPiece?

/-- What a path means, step by step. -/
def components (p : Path) : List Component := componentsOf p.text.toList

/-- Two spellings of one path. -/
def same (p q : Path) : Bool := decide (p.components = q.components)

/-- The order of component lists: the first difference decides, and a shorter list comes
before its extensions. -/
def compareComponents : List Component → List Component → Ordering
  | [], [] => .eq
  | [], _ :: _ => .lt
  | _ :: _, [] => .gt
  | a :: as, b :: bs => (a.compare b).then (compareComponents as bs)

/-- The order of paths is that of their components, so `/a/b` comes before `/a-b`. -/
def compare (p q : Path) : Ordering := compareComponents p.components q.components

/-- Extends a path text by one more step: an absolute step replaces what was there, and a
slash is put between two steps where none is. -/
def joinText (base step : List Char) : List Char :=
  match step with
  | '/' :: _ => step
  | _ =>
    if base = [] ∨ base.getLast? = some '/' then base ++ step
    else base ++ '/' :: step

/-- `p.join q` is `q` read from the directory `p`. -/
def join (p q : Path) : Path :=
  ⟨String.ofList (joinText p.text.toList q.text.toList)⟩

/-- The path with the given components, written without any needless slash. -/
def ofComponents (cs : List Component) : Path :=
  ⟨String.ofList (cs.foldl (fun text c => joinText text c.text.toList) [])⟩

/-- The name a path ends in; a root, `.` or `..` is no name. -/
def fileName? (p : Path) : Option String :=
  match p.components.getLast? with
  | some (.name s) => some s
  | _ => none

/-- Drops the pieces at the end of a reversed list of pieces that stand for no component. -/
def dropIdle : List (List Char) → List (List Char)
  | piece :: pieces =>
    if pieces = [] then [piece]
    else if piece = [] ∨ piece = ['.'] then dropIdle pieces
    else piece :: pieces
  | [] => []

/-- Puts reversed pieces back together with slashes. -/
def unsplit (reversed : List (List Char)) : List Char :=
  List.intercalate ['/'] reversed.reverse

/-- The text before the last component, when there is a component that can be dropped. -/
def parentText? (cs : List Char) : Option (List Char) :=
  match (componentsOf cs).getLast? with
  | none => none
  | some .root => none
  | some _ =>
    match dropIdle (splitSlash cs).reverse with
    | [] | [_] => some []
    | _ :: before =>
      match dropIdle before with
      -- Only the piece before the leading slash is left: the parent is the root.
      | [[]] => some ['/']
      | kept => some (unsplit kept)

/-- The directory a path lies in, spelled as in the path itself. -/
def parent? (p : Path) : Option Path :=
  (parentText? p.text.toList).map fun cs => ⟨String.ofList cs⟩

/-- What follows the last dot of a name, unless that dot is its first character. -/
def extensionOfName (name : List Char) : Option (List Char) :=
  let after := name.reverse.takeWhile (· != '.')
  let before := (name.reverse.dropWhile (· != '.')).drop 1
  if name = ['.', '.'] ∨ before = [] then none else some after.reverse

/-- The extension of the name a path ends in, without its dot. -/
def extension? (p : Path) : Option String :=
  p.fileName?.bind fun name => (extensionOfName name.toList).map String.ofList

/-- Whether the path's extension is one of the given ones. -/
def hasExtension (p : Path) (extensions : List String) : Bool :=
  match p.extension? with
  | some ext => extensions.contains ext
  | none => false

end Path

end ModuleGraph
