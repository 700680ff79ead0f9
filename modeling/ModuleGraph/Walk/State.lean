import ModuleGraph.Error
import ModuleGraph.Graph

set_option autoImplicit false

/-! # What a walk has found so far

A `WalkState` grows with each file: a file that parses is merged with what it exports and
imports (`merge`), and one that does not parse leaves a line in the statistics
(`recordFailure`). Either way the file is done and is never looked at again.
-/

namespace ModuleGraph

structure WalkState where
  /-- For each imported file, the names that are taken from it, ascending. -/
  imports : PathMap (List String) := []
  /-- For each loaded file, the names that it exports, in the order of its text. -/
  exports : PathMap (List String) := []
  loaded : PathSet := []
  /-- The files that do not parse and need not. -/
  unparsed : PathSet := []
  /-- One line for each file that does not parse, in the order of reading. -/
  stats : List String := []
deriving DecidableEq, Repr, Inhabited

namespace WalkState

/-- Whether a file needs no other look. -/
def isDone (s : WalkState) (file : Path) : Bool := s.loaded.has file || s.unparsed.has file

def addImport (imports : PathMap (List String)) (entry : Path × List String) :
    PathMap (List String) :=
  imports.alter entry.1 fun old => insertNames entry.2 (old.getD [])

/-- Adds a file that was loaded, with the names it exports and those it imports. -/
def merge (s : WalkState) (file : Path) (exports : List String)
    (imports : List (Path × List String)) : WalkState :=
  { s with
    imports := imports.foldl addImport s.imports
    exports := s.exports.insert file exports
    loaded := s.loaded.insert file }

/-- Adds a file that does not parse. -/
def recordFailure (s : WalkState) (file : Path) (reason : String) : WalkState :=
  { s with
    unparsed := s.unparsed.insert file
    stats := s.stats ++ [parseFailureMessage file reason] }

/-- The graph of all that was found; exported names are sorted here. -/
def toGraph (s : WalkState) : Graph :=
  { imports := s.imports
    exports := s.exports.map fun entry => (entry.1, sortNames entry.2)
    loadedFiles := s.loaded
    stats := s.stats }

end WalkState

end ModuleGraph
