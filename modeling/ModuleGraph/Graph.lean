import ModuleGraph.Options

set_option autoImplicit false

/-! # Dependency graphs

The result of a walk, in its full form (`Graph`) and reduced to what depends on what
(`Summary`), and how both are written as JSON and read back.
-/

namespace ModuleGraph

/-- What a walk found: for each imported file the names taken from it, for each loaded file
the names it exports, the loaded files, and the parse failures in the order of reading. -/
structure Graph where
  imports : PathMap (List String) := []
  exports : PathMap (List String) := []
  loadedFiles : PathSet := []
  stats : List String := []
deriving DecidableEq, Repr, Inhabited

/-- The part of a graph that says which files are imported and which were loaded. -/
structure Summary where
  dependencies : PathMap (List String) := []
  loadedFiles : PathSet := []
deriving DecidableEq, Repr, Inhabited

/-- A graph in the form that was asked for. -/
inductive Output where
  | full (graph : Graph)
  | dependencies (summary : Summary)
deriving DecidableEq, Repr, Inhabited

def Graph.toSummary (g : Graph) : Summary := ⟨g.imports, g.loadedFiles⟩

def Graph.toOutput (g : Graph) : OutputMode → Output
  | .full => .full g
  | .dependencies => .dependencies g.toSummary

/-! ## As JSON -/

open Json

def pathMapToJson (m : PathMap (List String)) : Value :=
  .object (m.map fun entry => (entry.1.text, Value.texts entry.2))

def pathsToJson (ps : List Path) : Value := Value.texts (ps.map (·.text))

def Graph.toJson (g : Graph) : Value :=
  .object [("imports", pathMapToJson g.imports), ("exports", pathMapToJson g.exports),
    ("loadedFiles", pathsToJson g.loadedFiles), ("stats", Value.texts g.stats)]

def Summary.toJson (s : Summary) : Value :=
  .object [("dependencies", pathMapToJson s.dependencies),
    ("loadedFiles", pathsToJson s.loadedFiles)]

def Output.toJson : Output → Value
  | .full g => g.toJson
  | .dependencies s => s.toJson

/-- Decodes names by path; of two spellings of one path the first stays, with the value of
the last. -/
def decodePathMap : Decoder (PathMap (List String)) := fun d =>
  (decodeMap decodeTexts d).map fun entries =>
    PathMap.ofList (entries.map fun entry => (⟨entry.1⟩, entry.2))

def decodePathSet : Decoder PathSet := fun d =>
  (decodeList (decodeText "path string") d).map fun texts => PathSet.ofList (texts.map Path.mk)

def Graph.fields : List (RecordField Graph) :=
  [RecordField.of "imports" decodePathMap fun a r => { r with imports := a },
   RecordField.of "exports" decodePathMap fun a r => { r with exports := a },
   RecordField.of "loadedFiles" decodePathSet fun a r => { r with loadedFiles := a },
   RecordField.of "stats" decodeTexts fun a r => { r with stats := a }]

/-- Decodes a graph, all of whose fields must be there. -/
def Graph.decode : Decoder Graph := decodeRecord "DependencyGraph" Graph.fields .refused {}

def Summary.fields : List (RecordField Summary) :=
  [RecordField.of "dependencies" decodePathMap fun a r => { r with dependencies := a },
   RecordField.of "loadedFiles" decodePathSet fun a r => { r with loadedFiles := a }]

def Summary.decode : Decoder Summary :=
  decodeRecord "DependencySummary" Summary.fields .refused {}

end ModuleGraph
