import ModuleGraph.Resolve.Run
import ModuleGraph.Source.Parse
import ModuleGraph.Walk.Run

set_option autoImplicit false

/-! # Walks on a disk

A disk serves a walk as its host: it gives the texts, and specifiers are resolved in it.
Options are read from a file of the disk.
-/

namespace ModuleGraph

namespace Disk

def host (disk : Disk) (options : GraphOptions) : Host :=
  { read := disk.read
    parse := fun p source =>
      (Source.parseFacts options.parserOptions p source).mapError Source.ParseError.message
    resolve := (Resolver.mk disk options.resolveOptions).resolve }

/-- How many reads a walk needs at most: an import leads to a file, and an entry may be any
spelling of one. -/
def readBudget (disk : Disk) (options : GraphOptions) : Nat :=
  disk.root.fileCount + options.files.length

/-- The walk from the entries in the options, unless the budget of reads was too small. -/
def run? (disk : Disk) (options : GraphOptions) : Except GraphError (Option Run) :=
  (Walker.create (disk.host options) options disk.cwdPath).map fun walker =>
    walker.walk (disk.readBudget options)

/-- The graph of the entries in the options, unless the budget of reads was too small. -/
def graph? (disk : Disk) (options : GraphOptions) : Except GraphError (Option Graph) := do
  match ← disk.run? options with
  | none => pure none
  | some run => some <$> run.result.map (·.toGraph)

def loadOptions (disk : Disk) (p : Path) : Except GraphError GraphOptions :=
  match disk.read p with
  | .error e => .error (.ofRead p e)
  | .ok text => (GraphOptions.ofJson text).mapError (.config p)

end Disk

end ModuleGraph
