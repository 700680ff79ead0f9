import ModuleGraph.Glob.Match
import ModuleGraph.Lines

set_option autoImplicit false

/-! # Ignore rules

An ignore file holds one rule a line. A rule is a glob for paths below the directory of the
file; it ignores what it matches or, behind a `!`, keeps it. Of several rules that match,
the last one decides (`IgnoreFile.verdict?`).
-/

namespace ModuleGraph

inductive Verdict where
  | ignore
  | keep
deriving DecidableEq, Repr, Inhabited

structure IgnoreRule where
  glob : Glob
  /-- Whether only directories are matched. -/
  directoriesOnly : Bool
  verdict : Verdict
deriving Repr, Inhabited

/-- A line that is no rule, by its number. -/
structure IgnoreFault where
  line : Nat
  pattern : String
  cause : GlobError
deriving DecidableEq, Repr, Inhabited

/-- The rules of an ignore file, and its lines that are none. -/
structure IgnoreFile where
  rules : List IgnoreRule := []
  faults : List IgnoreFault := []
  /-- Why the rules are not compiled together. Then none of them holds. -/
  refusal : Option GlobError := none
deriving Repr, Inhabited

def isBlankCharacter (c : Char) : Bool :=
  let n := c.toNat
  (9 ≤ n && n ≤ 13) || n == 0x20 || n == 0x85 || n == 0xA0 || n == 0x1680 ||
    (0x2000 ≤ n && n ≤ 0x200A) || n == 0x2028 || n == 0x2029 || n == 0x202F || n == 0x205F ||
    n == 0x3000

namespace IgnoreRule

/-- A line without the blanks at its end, which are kept when the last one is escaped. -/
def trimEnd (line : List Char) : List Char :=
  match line.reverse with
  | ' ' :: '\\' :: _ => line
  | reversed => (reversed.dropWhile isBlankCharacter).reverse

/-- A line without the marks at its start: what the rule says, whether it holds only right
below the directory of the file, and the rest of the line. -/
def readMarks (line : List Char) : Verdict × Bool × List Char :=
  let readRoot (verdict : Verdict) : List Char → Verdict × Bool × List Char
    | '/' :: rest => (verdict, true, rest)
    | rest => (verdict, false, rest)
  match line with
  | '\\' :: '!' :: rest => (.ignore, false, '!' :: rest)
  | '\\' :: '#' :: rest => (.ignore, false, '#' :: rest)
  | '!' :: rest => readRoot .keep rest
  | rest => readRoot .ignore rest

/-- A line without the slash at its end, and whether there was one. -/
def readDirectoryMark (line : List Char) : Bool × List Char :=
  match line.reverse with
  | '/' :: '\\' :: rest => (true, rest.reverse)
  | '/' :: rest => (true, rest.reverse)
  | _ => (false, line)

/-- The glob of a rule. Without a slash it holds at every depth, and a `/**` at its end
leaves out the directory itself. -/
def globText (rooted : Bool) (line : List Char) : List Char :=
  let anywhere := !rooted && !line.contains '/' && line != ['*', '*']
  let glob := if anywhere then ['*', '*', '/'] ++ line else line
  if ['*', '*', '/'].isPrefixOf glob.reverse then glob ++ ['/', '*'] else glob

/-- The rule on a line; a comment or an empty line holds none. -/
def parse? (line : String) : Except GlobError (Option IgnoreRule) :=
  match line.toList with
  | '#' :: _ => .ok none
  | cs =>
    let cs := trimEnd cs
    if cs = [] then .ok none
    else
      let (verdict, rooted, cs) := readMarks cs
      let (directoriesOnly, cs) := readDirectoryMark cs
      (Glob.parseLenient (String.ofList (globText rooted cs))).map fun glob =>
        some { glob := glob, directoriesOnly := directoriesOnly, verdict := verdict }

def covers (rule : IgnoreRule) (p : Path) (isDirectory : Bool) : Bool :=
  (!rule.directoriesOnly || isDirectory) && rule.glob.matchesPath p

end IgnoreRule

namespace IgnoreFile

def addLine (file : IgnoreFile) (line : Nat × String) : IgnoreFile :=
  match IgnoreRule.parse? line.2 with
  | .ok none => file
  | .ok (some rule) => { file with rules := file.rules ++ [rule] }
  | .error cause =>
    let pattern := String.ofList (IgnoreRule.trimEnd line.2.toList)
    { file with faults := file.faults ++ [⟨line.1, pattern, cause⟩] }

/-- The first line without a byte order mark. -/
def dropMark : List String → List String
  | [] => []
  | line :: rest => String.ofList (line.toList.dropWhile (· == '\uFEFF')) :: rest

/-- Drops all rules when their globs are not compiled together. -/
def build (file : IgnoreFile) : IgnoreFile :=
  match Glob.setFault? (file.rules.map (·.glob)) with
  | some cause => { file with rules := [], refusal := some cause }
  | none => file

def ofBytes (bytes : ByteArray) : IgnoreFile :=
  let lines := dropMark (byteLines bytes)
  build (((List.range lines.length).map (· + 1) |>.zip lines).foldl addLine {})

/-- What the file says about a path below its directory, if anything. -/
def verdict? (file : IgnoreFile) (p : Path) (isDirectory : Bool) : Option Verdict :=
  (file.rules.reverse.find? fun rule => rule.covers p isDirectory).map (·.verdict)

/-- The wording of the faults of a file. Only those of a line are told with their place. -/
def faultMessages (file : IgnoreFile) (path : Path) : List String :=
  let ofLine (fault : IgnoreFault) : String :=
    path.text ++ ": line " ++ toString fault.line ++ ": " ++ fault.cause.describe fault.pattern
  file.faults.map ofLine ++ file.refusal.toList.map (·.describe "")

end IgnoreFile

end ModuleGraph
