import ModuleGraph.Aliases
import ModuleGraph.CommandLine.Arguments
import ModuleGraph.Entries
import ModuleGraph.Project

set_option autoImplicit false

/-! # The command line

The command line starts from the options of a file or from the defaults, changes them by its
flags, expands directories into entry files, and prints the graph of these.
-/

namespace ModuleGraph

inductive Outcome where
  /-- The arguments are wrong. -/
  | usage
  /-- The run failed for the given reason. -/
  | failed (reason : String)
  /-- The run found a graph, which is printed in the given form. -/
  | finished (graph : Graph) (mode : OutputMode) (compact : Bool)
deriving Inhabited

namespace Arguments

def dropDots (text : String) : String := String.ofList (text.toList.dropWhile (· == '.'))

/-- Options as changed by the flags, apart from their files. -/
def change (a : Arguments) (disk : Disk) (o : GraphOptions) : GraphOptions :=
  let found := match a.aliasRoot with
    | some root => disk.collectAliases root
    | none => []
  { o with
    recurse := o.recurse && !a.noRecurse
    exclude := o.exclude ++ a.exclude
    parserOptions :=
      { sourceKind := if a.script then .script else o.parserOptions.sourceKind
        jsx := o.parserOptions.jsx && !a.noJsx }
    resolveOptions :=
      { o.resolveOptions with
        extensions := o.resolveOptions.extensions ++ a.extensions.map fun e => "." ++ dropDots e
        aliases := setKeys found o.resolveOptions.aliases }
    strictExtensions :=
      if a.strictExtensions.isEmpty then o.strictExtensions else a.strictExtensions.map dropDots
    output := a.format.getD o.output }

/-- The options that the arguments ask for, or why there are none. -/
def options (a : Arguments) (disk : Disk) : Except String GraphOptions := do
  let start ← match a.config with
    | none => pure {}
    | some p => (disk.loadOptions p).mapError fun _ => "Failed to load config " ++ p.text
  let changed := a.change disk start
  let files := if a.files.isEmpty then changed.files else a.files
  let entries ← (disk.collectEntries files).mapError GraphError.message
  if entries.isEmpty then throw "No entry files given"
  pure { changed with files := entries }

end Arguments

def runCommandLine (disk : Disk) (arguments : List String) : Outcome :=
  match Arguments.parse? arguments with
  | none => .usage
  | some a =>
    match a.options disk with
    | .error reason => .failed reason
    | .ok o =>
      match disk.graph? o with
      | .error e => .failed e.message
      | .ok none => .failed "Too many files"
      | .ok (some graph) => .finished graph o.output a.compact

namespace Outcome

def status : Outcome → Nat
  | .usage => 2
  | .failed _ => 1
  | .finished _ _ _ => 0

def result : Outcome → String
  | .usage | .failed _ => ""
  | .finished graph mode compact =>
    let json := (graph.toOutput mode).toJson
    (if compact then json.compact else json.pretty) ++ "\n"

/-- What a run that took the given number of milliseconds tells about itself, line by
line. -/
def notes (milliseconds : Nat) : Outcome → List String
  | .usage => ["Usage: module-graph [OPTIONS] [FILES]..."]
  | .failed reason => ["Error: " ++ reason]
  | .finished graph _ _ =>
    graph.stats.map ("⚠ " ++ ·) ++
      ["● Loaded " ++ toString graph.loadedFiles.length ++ " files with " ++
        toString graph.imports.length ++ " dependencies in " ++ toString milliseconds ++
        "ms (" ++ toString graph.stats.length ++ " parse failures)."]

end Outcome

end ModuleGraph
