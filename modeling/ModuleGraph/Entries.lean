import ModuleGraph.Ignore.Listing

set_option autoImplicit false

/-! # Entry files

A list of paths is expanded into entry files: a directory gives the module files below it,
in path order and without tests, and any other path stands for itself.
-/

namespace ModuleGraph

def occursIn (part text : List Char) : Bool :=
  match text with
  | [] => part.isEmpty
  | c :: rest => part.isPrefixOf (c :: rest) || occursIn part rest

/-- Whether a path has the mark of a test anywhere in its text. -/
def Path.isTest (p : Path) : Bool :=
  [".test.", ".spec."].any fun mark => occursIn mark.toList p.text.toList

/-- Sorts paths and keeps repetitions. -/
def sortPaths (ps : List Path) : List Path :=
  ps.mergeSort fun p q => (p.compare q).isLE

def Disk.isEntry (disk : Disk) (p : Path) : Bool :=
  disk.isFile p && !p.isTest && p.hasExtension moduleExtensions

/-- The entry files that a path stands for. A directory is not read when an ignore file
above it has a fault. -/
def Disk.entriesOf (disk : Disk) (p : Path) : Except GraphError (List Path) :=
  if disk.isDirectory p then
    match disk.locate p with
    | .error e => .error (.ofRead p e)
    | .ok place =>
      match faultsAbove disk place with
      | [] => .ok (sortPaths ((disk.listing p).filter disk.isEntry))
      | faults => .error (.unreadable p ("\n".intercalate faults))
  else .ok [p]

def Disk.collectEntries (disk : Disk) (ps : List Path) : Except GraphError (List Path) :=
  (ps.mapM disk.entriesOf).map List.flatten

end ModuleGraph
