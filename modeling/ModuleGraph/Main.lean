import ModuleGraph.CommandLine.Lookups

set_option autoImplicit false

/-! # The program

The program reads the part of the file system that a run looks at, piece by piece, until the
run asks for nothing new. Then it prints what came of the run.
-/

namespace ModuleGraph

/-- The part of the file system that was read so far. -/
structure Snapshot where
  disk : Disk
  /-- The directories that were read; a deep one with all that is below it. -/
  directories : List Lookup := []

/-- The entries of the directories on the way down that matter to all that is below them. -/
def landmarks : List (List String) :=
  [["package.json"], [".ignore"], [".gitignore"], [".git"], [".git", "info", "exclude"]]

/-- The names of an absolute path without `..`. -/
def Path.toPlace (p : Path) : Place :=
  p.components.filterMap fun
    | .name s => some s
    | _ => none

namespace Snapshot

def covers (s : Snapshot) (l : Lookup) : Bool :=
  s.directories.any fun known =>
    if known.deep then known.path.toPlace.isPrefixOf l.path.toPlace
    else !l.deep && known.path.same l.path

/-- Whether there is anything at a path of the file system. -/
def exists? (p : Path) : IO Bool := (System.mkFilePath [p.text]).pathExists

/-- Reads what is at a path; what cannot be read is left out. Unless the reading is deep,
directories are empty. -/
partial def readNode (deep : Bool) (p : Path) : IO (Option Node) := do
  let source := System.mkFilePath [p.text]
  try
    match (← source.symlinkMetadata).type with
    | .file => return some (.file (← IO.FS.readBinFile source))
    | .symlink => return some (.link ⟨(← IO.FS.realPath source).toString⟩)
    | .other => return none
    | .dir =>
      if !deep then return some (.directory [])
      let mut entries := []
      for entry in ← source.readDir do
        if let some node ← readNode true ⟨entry.path.toString⟩ then
          entries := setKey entry.fileName node entries
      return some (.directory entries)
  catch _ => return none

/-- Adds what is at a path, unless something is known to be there. -/
def addNode (s : Snapshot) (p : Path) : IO Snapshot := do
  if s.disk.has p then return s
  match ← readNode false p with
  | some node => return { s with disk := s.disk.put p node }
  | none => return s

/-- Adds a directory, with the landmarks above it. -/
def addDirectory (s : Snapshot) (l : Lookup) : IO Snapshot := do
  let mut entries := []
  for entry in ← (System.mkFilePath [l.path.text]).readDir do
    if let some node ← readNode l.deep ⟨entry.path.toString⟩ then
      entries := entries ++ [(entry.fileName, node)]
  let above := l.path.ancestors.reverse.flatMap fun directory =>
    landmarks.map fun names => directory.join (Path.ofComponents (names.map .name))
  above.foldlM addNode
    { disk := s.disk.graft l.path.toPlace entries, directories := l :: s.directories }

/-- Adds the directory of a path: that of its package, or else the one that it names or lies
in. The links on the way to it are added too. -/
def add (s : Snapshot) (l : Lookup) : IO Snapshot := do
  if !(← exists? l.path) then return s
  let s ← l.path.ancestors.reverse.foldlM addNode s
  let real : Path := ⟨(← IO.FS.realPath l.path.text).toString⟩
  let directory := if ← (System.mkFilePath [real.text]).isDir then real else real.directory
  let package? ← directory.ancestors.findM? fun p => exists? (p.join ⟨"package.json"⟩)
  let wanted : Lookup := match package? with
    | some p => ⟨p, true⟩
    | none => ⟨directory, l.deep && directory == real⟩
  if s.covers wanted then return s else s.addDirectory wanted

/-- Adds all that a run looks at. -/
partial def settle (arguments : List String) (s : Snapshot) : IO Snapshot := do
  let next ← (lookups s.disk arguments).foldlM add s
  if next.directories.length = s.directories.length then return next
  else settle arguments next

/-- The part of the file system that a run in the current directory looks at. -/
def take (arguments : List String) : IO Snapshot := do
  let cwd : Path := ⟨(← IO.FS.realPath (← IO.currentDir)).toString⟩
  let start : Snapshot := { disk := ⟨.directory [], cwd.toPlace⟩ }
  settle arguments (← start.add ⟨cwd, false⟩)

end Snapshot

/-- Runs the command line, tells about the run, and prints its result. -/
def report (arguments : List String) : IO UInt32 := do
  let start ← IO.monoMsNow
  let snapshot ← Snapshot.take arguments
  let outcome := runCommandLine snapshot.disk arguments
  let result := outcome.result
  let notes := outcome.notes ((← IO.monoMsNow) - start)
  notes.forM fun line => IO.eprintln line
  IO.print result
  return outcome.status.toUInt32

end ModuleGraph

def main (arguments : List String) : IO UInt32 := ModuleGraph.report arguments
