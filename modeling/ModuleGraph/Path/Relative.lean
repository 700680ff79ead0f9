import ModuleGraph.Path.Basic

set_option autoImplicit false

/-! # Relative paths and library files

`Path.relativeTo?` writes the way from one path to another, and `Path.isLibrary` asks of
that way whether it leaves the importing file upwards and at once enters a library
directory such as `node_modules`.
-/

namespace ModuleGraph

namespace Path

/-- How many components two paths share from the start. -/
def commonLength : List Component → List Component → Nat
  | a :: as, b :: bs => if a = b then commonLength as bs + 1 else 0
  | _, _ => 0

/-- A step that can be written in a relative path. -/
def isStep : Component → Bool
  | .name _ | .up => true
  | .root | .here => false

/-- The steps from `base` to `target`: up out of what only `base` has, then down into what
only `target` has. There are none to write when the two do not start alike. -/
def stepsBetween? (target base : List Component) : Option (List Component) :=
  if target.head? = base.head? then
    let common := commonLength target base
    some (List.replicate (base.length - common) .up ++ (target.drop common).filter isStep)
  else none

/-- The way from `base` to `target`, `.` when there is nothing to go. -/
def relativeTo? (target base : Path) : Option Path :=
  (stepsBetween? target.components base.components).map fun steps =>
    let way := ofComponents steps
    if way.text.isEmpty then ⟨"."⟩ else way

/-- A step that stays or climbs. -/
def isClimb : Component → Bool
  | .here | .up => true
  | .root | .name _ => false

/-- Whether a way climbs first and then enters one of the given directories. -/
def entersAfterClimb (dirs : List String) (way : List Component) : Bool :=
  (way.head?.any isClimb) &&
    match way.dropWhile isClimb with
    | .name s :: _ => dirs.contains s
    | _ => false

/-- Whether `resolved`, imported by `importer`, is library code: it is not absolute (a
module built into the host), or it lies in one of `dirs` next to or above the importer. -/
def isLibrary (importer resolved : Path) (dirs : List String) : Bool :=
  if resolved.isAbsolute then
    match resolved.relativeTo? importer with
    | some way => entersAfterClimb dirs way.components
    | none => false
  else true

end Path

end ModuleGraph
