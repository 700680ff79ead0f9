import ModuleGraph.Path.Basic

set_option autoImplicit false

/-! # Normal forms of paths

`Path.clean` resolves the `.` and `..` steps of a path without looking at any disk: a `..`
cancels the name before it, vanishes at the root, and is kept at the start of a relative
path. `Path.absolutize` reads a path from a working directory and cleans the result.
-/

namespace ModuleGraph

namespace Path

/-- Takes one more component onto a cleaned path, which is held last component first. -/
def cleanStep (kept : List Component) (c : Component) : List Component :=
  match c, kept with
  | .here, _ => kept
  | .up, .root :: _ => kept
  | .up, .name _ :: rest => rest
  | c, _ => c :: kept

/-- The components left after every `.` and `..` that can be resolved is. -/
def cleanComponents (cs : List Component) : List Component :=
  (cs.foldl cleanStep []).reverse

/-- The lexical normal form of a path; what is left of nothing is `.`. -/
def clean (p : Path) : Path :=
  match cleanComponents p.components with
  | [] => ⟨"."⟩
  | cs => ofComponents cs

/-- The normal form of `p` as read from the working directory `cwd`. -/
def absolutize (p cwd : Path) : Path :=
  if p.isAbsolute then p.clean else (cwd.join p).clean

end Path

end ModuleGraph
