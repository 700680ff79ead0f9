import ModuleGraph.Error
import ModuleGraph.Exclude
import ModuleGraph.Facts
import ModuleGraph.Options
import ModuleGraph.Path.Relative

set_option autoImplicit false

/-! # Looking at one file

A walk asks three things of its surroundings, which are the fields of a `Host`: the text of
a file, the facts of that text, and where a specifier leads. `Walker.look` asks them of one
file. It depends on the host and the options alone and not on how far the walk has come, and
it returns both the questions in their order (`Walker.eventsOf`) and what the file turns out
to be (`Walker.inspect`).
-/

namespace ModuleGraph

/-- The surroundings of a walk. -/
structure Host where
  /-- The text of a file. -/
  read : Path → Except ReadError String
  /-- The facts of a file with the given text, or why they are not known. -/
  parse : Path → String → Except String Facts
  /-- Where a specifier leads from a directory, or why it leads nowhere. -/
  resolve : String → Path → Except String Path

/-- All that is fixed during a walk. -/
structure Walker where
  host : Host
  options : GraphOptions
  exclude : Exclude
  /-- The directory that relative entries start from. -/
  cwd : Path

namespace Walker

/-- A walker at work in the given directory, where relative exclude patterns start too. -/
def create (host : Host) (options : GraphOptions) (cwd : Path) : Except GraphError Walker :=
  (Exclude.compileAt cwd options.exclude).map fun exclude => ⟨host, options, exclude, cwd⟩

def moveTo (w : Walker) (cwd : Path) : Except GraphError Walker :=
  create w.host w.options cwd

end Walker

/-- A question that is asked of the host. -/
inductive Event where
  | read (file : Path)
  | resolve (specifier : String) (directory : Path)
deriving DecidableEq, Repr, Inhabited

/-- What a file turns out to be. -/
inductive Inspection where
  /-- The walk cannot go on. -/
  | broken (error : GraphError)
  /-- The file does not parse, and need not. -/
  | unparsed (reason : String)
  /-- The names that the file exports, and the names that it takes from each file that its
  specifiers lead to, in the order of the specifiers. -/
  | parsed (exports : List String) (imports : List (Path × List String))
deriving DecidableEq, Repr, Inhabited

/-- The directory that the specifiers of a file are resolved from. -/
def Path.directory (file : Path) : Path := file.parent?.getD file

/-- The first occurrence of each path, under any spelling. -/
def firstOccurrences (ps : List Path) : List Path :=
  ps.foldl (fun kept p => if kept.any (·.same p) then kept else kept ++ [p]) []

namespace Walker

/-- Asks where the specifiers of a file lead, up to the first one that leads nowhere, which is the
error. -/
def ask (w : Walker) (file : Path) :
    List (String × List String) → List Event × Except GraphError (List (Path × List String))
  | [] => ([], .ok [])
  | (specifier, names) :: more =>
    let question := Event.resolve specifier file.directory
    match w.host.resolve specifier file.directory with
    | .error reason => ([question], .error (.resolution specifier file reason))
    | .ok target =>
      let rest := ask w file more
      (question :: rest.1, rest.2.map fun targets => (target, names) :: targets)

/-- Looks at a file: the questions that are asked of the host, and what the file turns out to be. -/
def look (w : Walker) (file : Path) : List Event × Inspection :=
  match w.host.read file with
  | .error e => ([.read file], .broken (.ofRead file e))
  | .ok source =>
    match w.host.parse file source with
    | .error reason =>
      ([.read file],
        if w.options.isStrict file then .broken (.parse file reason) else .unparsed reason)
    | .ok facts =>
      match w.ask file facts.imports with
      | (events, .error e) => (.read file :: events, .broken e)
      | (events, .ok imports) => (.read file :: events, .parsed facts.exports imports)

def asked (w : Walker) (file : Path) (imports : List (String × List String)) : List Event :=
  (w.ask file imports).1

def resolveAll (w : Walker) (file : Path) (imports : List (String × List String)) :
    Except GraphError (List (Path × List String)) :=
  (w.ask file imports).2

def eventsOf (w : Walker) (file : Path) : List Event := (w.look file).1

def inspect (w : Walker) (file : Path) : Inspection := (w.look file).2

/-- The imported files that are not library code, each once, in the order of the
specifiers. -/
def locals (w : Walker) (file : Path) (imports : List (Path × List String)) : List Path :=
  firstOccurrences
    ((imports.map (·.1)).filter fun p => !file.isLibrary p w.options.libraryDirs)

end Walker

end ModuleGraph
