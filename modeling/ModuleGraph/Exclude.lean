import ModuleGraph.Glob.Match
import ModuleGraph.Path.Clean

set_option autoImplicit false

/-! # Excluded files

A pattern with a `*` is a glob for the whole text of a path; any other pattern names one
path. Relative patterns are anchored at a base directory, whose own characters are taken
literally.

Main definitions: `Exclude.compile`, `Exclude.compileAt`, `Exclude.excludes`, `Exclude.check`.
-/

namespace ModuleGraph

/-- The files a walk does not read: some by name, some by glob. -/
structure Exclude where
  exact : List Path := []
  globs : List Glob := []
deriving Repr, Inhabited

namespace Exclude

def isGlob (pattern : String) : Bool := pattern.toList.contains '*'

def add (filter : Exclude) (pattern : String) : Except GraphError Exclude :=
  if isGlob pattern then
    match Glob.parse pattern with
    | .ok glob => .ok { filter with globs := filter.globs ++ [glob] }
    | .error cause => .error (.invalidPattern pattern cause)
  else .ok { filter with exact := filter.exact ++ [⟨pattern⟩] }

/-- The names and the globs of a list of patterns. The first pattern that is no glob is reported. -/
def collect (patterns : List String) : Except GraphError Exclude := patterns.foldlM add {}

/-- The filter of a list of patterns, where `fault?` tells what is wrong with a set of globs. Such a
fault is reported under all of the patterns. -/
def compileWith (fault? : List Glob → Option GlobError) (patterns : List String) :
    Except GraphError Exclude :=
  match collect patterns with
  | .error e => .error e
  | .ok filter =>
    if filter.globs.isEmpty then .ok filter
    else
      match fault? filter.globs with
      | some cause => .error (.invalidPattern (", ".intercalate patterns) cause)
      | none => .ok filter

def compile (patterns : List String) : Except GraphError Exclude :=
  compileWith Glob.setFault? patterns

def isEmpty (filter : Exclude) : Bool := filter.exact.isEmpty && filter.globs.isEmpty

def excludes (filter : Exclude) (p : Path) : Bool :=
  filter.globs.any (·.matchesPath p) || filter.exact.any (·.same p)

def check (patterns : List String) (p : Path) : Except GraphError Bool :=
  (compile patterns).map (·.excludes p)

/-! ## Anchoring -/

def isMeta (c : Char) : Bool :=
  c == '?' || c == '*' || c == '[' || c == ']' || c == '\x7b' || c == '\x7d'

/-- A text as a glob that matches just this text: a character with a meaning is put into a
class of its own. -/
def literally (cs : List Char) : List Char :=
  cs.flatMap fun c => if isMeta c then ['[', c, ']'] else [c]

def dropTrailingSlashes (cs : List Char) : List Char :=
  (cs.reverse.dropWhile (· == '/')).reverse

/-- Drops `./` from the start, as often as it is there. -/
def dropLeadingHere : List Char → List Char
  | '.' :: '/' :: rest => dropLeadingHere rest
  | cs => cs

/-- A pattern as it reads from the base directory. Absolute patterns and those that start
with `**` match anywhere and stay as they are. -/
def anchor (base : Path) (pattern : String) : String :=
  let cs := pattern.toList
  if (Path.mk pattern).isAbsolute || ['*', '*'].isPrefixOf cs then pattern
  else if isGlob pattern then
    String.ofList (dropTrailingSlashes (literally base.text.toList) ++ '/' :: dropLeadingHere cs)
  else (base.join ⟨pattern⟩).clean.text

def compileAt (base : Path) (patterns : List String) : Except GraphError Exclude :=
  compile (patterns.map (anchor base))

end Exclude

end ModuleGraph
