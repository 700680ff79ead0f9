import ModuleGraph.Json.Decode
import ModuleGraph.Path.Basic

set_option autoImplicit false

/-! # Errors that end a walk

Each way in which a walk can fail is a constructor of `GraphError`, and `GraphError.message`
is the one place that words it.
-/

namespace ModuleGraph

inductive GlobError where
  /-- A `[` without its `]`. -/
  | unclosedClass
  /-- A range whose ends are in the wrong order. -/
  | invalidRange (low high : Char)
  /-- A closing brace without an opening one. -/
  | unopenedAlternates
  /-- An opening brace without a closing one. -/
  | unclosedAlternates
  /-- A backslash at the end. -/
  | danglingEscape
  /-- A regular expression is refused. It is named when it was compiled for itself. -/
  | notCompiled (regex : Option String) (reason : String)
deriving DecidableEq, Repr, Inhabited

def GlobError.message : GlobError → String
  | unclosedClass => "unclosed character class; missing ']'"
  | invalidRange low high =>
    "invalid range; '" ++ low.toString ++ "' > '" ++ high.toString ++ "'"
  | unopenedAlternates =>
    "unopened alternate group; missing '\x7b' (maybe escape '\x7d' with '[\x7d]'?)"
  | unclosedAlternates =>
    "unclosed alternate group; missing '\x7d' (maybe escape '\x7b' with '[\x7b]'?)"
  | danglingEscape => "dangling '\\'"
  | notCompiled _ reason => reason

/-- What the message of a glob error names: the pattern, or else its regular expression. -/
def GlobError.subject? (pattern : String) : GlobError → Option String
  | notCompiled regex _ => regex
  | _ => some pattern

/-- The wording of a glob error, with what it is about. -/
def GlobError.describe (pattern : String) (e : GlobError) : String :=
  match e.subject? pattern with
  | some subject => "error parsing glob '" ++ subject ++ "': " ++ e.message
  | none => e.message

inductive ReadError where
  /-- There is no such file. -/
  | notFound
  /-- A directory has no text. -/
  | isDirectory
  /-- The path goes on below something that is no directory. -/
  | notDirectory
  /-- The links on the way do not end. -/
  | tooManyLinks
  /-- The bytes of the file are no text. -/
  | notText
  /-- Reading failed for another reason, told by the host. -/
  | failed (reason : String)
deriving DecidableEq, Repr, Inhabited

def ReadError.message : ReadError → String
  | notFound => "No such file or directory (os error 2)"
  | isDirectory => "Is a directory (os error 21)"
  | notDirectory => "Not a directory (os error 20)"
  | tooManyLinks => "Too many levels of symbolic links (os error 40)"
  | notText => "stream did not contain valid UTF-8"
  | failed reason => reason

/-- Why a walk ended without a graph. -/
inductive GraphError where
  /-- A file that has to be read does not exist. -/
  | missingFile (path : Path)
  /-- A strict file does not parse. -/
  | parse (path : Path) (reason : String)
  /-- A specifier of a file leads nowhere. -/
  | resolution (specifier : String) (importer : Path) (reason : String)
  /-- A file exists and cannot be read. -/
  | unreadable (path : Path) (reason : String)
  /-- An exclude pattern is no glob, or the patterns are not compiled together. -/
  | invalidPattern (pattern : String) (cause : GlobError)
  /-- An options file does not hold options. -/
  | config (path : Path) (cause : Json.Problem)
deriving DecidableEq, Repr, Inhabited

def problemMessage : Json.Problem → String
  | .fault .malformed => "malformed JSON"
  | .fault .cutShort => "JSON ends too early"
  | .mismatch m => m

def parseFailureMessage (path : Path) (reason : String) : String :=
  "Failed to parse " ++ path.text ++ ": " ++ reason

namespace GraphError

def message : GraphError → String
  | missingFile path => "Failed to read file " ++ path.text
  | parse path reason => parseFailureMessage path reason
  | resolution specifier importer reason =>
    "Failed to resolve module '" ++ specifier ++ "' from '" ++ importer.text ++ "': " ++ reason
  | unreadable path reason => "I/O error reading " ++ path.text ++ ": " ++ reason
  | invalidPattern pattern cause =>
    "Invalid exclude pattern '" ++ pattern ++ "': " ++ cause.describe pattern
  | config path cause => "Invalid config file " ++ path.text ++ ": " ++ problemMessage cause

def ofRead (path : Path) : ReadError → GraphError
  | .notFound => missingFile path
  | e => unreadable path e.message

end GraphError

end ModuleGraph
