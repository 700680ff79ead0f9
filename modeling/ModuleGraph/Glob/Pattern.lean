import ModuleGraph.Error

set_option autoImplicit false

/-! # Globs

A glob is a list of `GlobToken`s. `*` and `?` stay inside one segment of a path, and `**`
crosses segments where it fills a segment of its own: at the start (`**/`), between two
slashes (`/**/`) and at the end (`/**`). Any other pair of stars acts like a single one.
Braces hold alternatives, brackets hold classes, and a backslash takes the meaning from the
character after it.

Main definition: `Glob.parse`.
-/

namespace ModuleGraph

inductive GlobToken where
  /-- A character that stands for itself. -/
  | literal (c : Char)
  /-- Any one unit of text but a slash. -/
  | any
  /-- Any text without a slash. -/
  | star
  /-- A leading `**/`: any directories, or none. -/
  | leading
  /-- A trailing `/**`: anything below. -/
  | trailing
  /-- An inner `/**/`: any directories between, or none. -/
  | between
  /-- A character of a class, or outside of it. -/
  | oneOf (negated : Bool) (ranges : List (Char × Char))
  /-- Any one of several globs. -/
  | alternates (branches : List (List GlobToken))
deriving Repr, Inhabited

abbrev Glob := List GlobToken

namespace Glob

/-- A class that is being read: its ranges, last one first, and whether a hyphen waits for
the end of a range. -/
structure ClassState where
  ranges : List (Char × Char) := []
  inRange : Bool := false
deriving Repr, Inhabited

/-- Sets the end of the last range. -/
def ClassState.extend (s : ClassState) (c : Char) : Except GlobError ClassState :=
  match s.ranges with
  | [] => .ok { ranges := [(c, c)] }
  | (low, _) :: rest =>
    if c < low then .error (.invalidRange low c) else .ok { ranges := (low, c) :: rest }

def ClassState.take (s : ClassState) (first : Bool) (c : Char) : Except GlobError ClassState :=
  if s.inRange then s.extend c
  else if c = '-' ∧ !first then .ok { s with inRange := true }
  else .ok { ranges := (c, c) :: s.ranges }

/-- The ranges of a class that is complete; a hyphen at its end is a character. -/
def ClassState.finish (s : ClassState) : List (Char × Char) :=
  (if s.inRange then ('-', '-') :: s.ranges else s.ranges).reverse

/-- Reads a class up to its closing bracket; a bracket that comes first belongs to it. -/
def readClass (first : Bool) (s : ClassState) :
    List Char → Except GlobError (List (Char × Char) × List Char)
  | [] => .error .unclosedClass
  | c :: rest =>
    if c = ']' ∧ !first then .ok (s.finish, rest)
    else
      match s.take first c with
      | .error e => .error e
      | .ok s => readClass false s rest

/-- A group of alternatives that is open: the branches read so far and the items before the
group, both last one first. -/
structure OpenGroup where
  branches : List (List GlobToken)
  before : List GlobToken
deriving Repr, Inhabited

/-- What a pair of stars stands for. The answer holds the items read so far, last one
first, the character before what follows, and the text that follows. -/
def readDoubleStar (before : Option Char) (items : List GlobToken) (grouped : Bool)
    (rest : List Char) : List GlobToken × Option Char × List Char :=
  let plain := (.star :: .star :: items, some '*', rest)
  match items with
  | [] =>
    match rest with
    | [] => ([.leading], none, [])
    | '/' :: rest => ([.leading], some '/', rest)
    | _ => plain
  | last :: earlier =>
    let free := before = some '/' ∨ (grouped ∧ (before = some ',' ∨ before = some '\x7b'))
    if free then
      let put (token : GlobToken) : List GlobToken :=
        match last with
        | .leading => items
        | .trailing => items
        | _ => token :: earlier
      match rest with
      | [] => (put .trailing, none, [])
      | '/' :: rest => (put .between, some '/', rest)
      | c :: _ =>
        if grouped ∧ (c = ',' ∨ c = '\x7d') then (put .trailing, some '*', rest) else plain
    else plain

inductive Brackets where
  /-- It must have its closing bracket. -/
  | strict
  /-- Without a closing bracket it stands for itself, and so do all that follow. -/
  | lenient
  /-- It stands for itself. -/
  | literal
deriving DecidableEq, Repr, Inhabited

/-- The body of a class, and whether the class is negated. -/
def classBody : List Char → Bool × List Char
  | '!' :: body => (true, body)
  | '^' :: body => (true, body)
  | body => (false, body)

/-- Reads a glob from a position on: the character before it, the items of the branch so
far, last one first, and the open groups, innermost first. -/
def parseFrom : Nat → Brackets → Option Char → List GlobToken → List OpenGroup → List Char →
    Except GlobError Glob
  | 0, _, _, items, _, _ => .ok items.reverse
  | _ + 1, _, _, items, groups, [] =>
    if groups.isEmpty then .ok items.reverse else .error .unclosedAlternates
  | fuel + 1, mode, before, items, groups, c :: rest =>
    let asItself (mode : Brackets) := parseFrom fuel mode (some c) (.literal c :: items) groups rest
    match c, rest, groups with
    | '?', _, _ => parseFrom fuel mode (some '?') (.any :: items) groups rest
    | '*', '*' :: after, _ =>
      let (items, before, after) := readDoubleStar before items (!groups.isEmpty) after
      parseFrom fuel mode before items groups after
    | '*', _, _ => parseFrom fuel mode (some '*') (.star :: items) groups rest
    | '[', _, _ =>
      if mode = .literal then asItself mode
      else
        let (negated, body) := classBody rest
        match readClass true {} body with
        | .error e =>
          if mode = .lenient ∧ e = .unclosedClass then asItself .literal else .error e
        | .ok (ranges, after) =>
          parseFrom fuel mode (some ']') (.oneOf negated ranges :: items) groups after
    | '\x7b', _, _ => parseFrom fuel mode (some c) [] (⟨[], items⟩ :: groups) rest
    | '\x7d', _, [] => .error .unopenedAlternates
    | '\x7d', _, group :: groups =>
      let branches := (items.reverse :: group.branches).reverse
      parseFrom fuel mode (some c) (.alternates branches :: group.before) groups rest
    | ',', _, group :: groups =>
      let group := { group with branches := items.reverse :: group.branches }
      parseFrom fuel mode (some c) [] (group :: groups) rest
    | '\\', [], _ => .error .danglingEscape
    | '\\', d :: after, _ => parseFrom fuel mode (some d) (.literal d :: items) groups after
    | _, _, _ => asItself mode

def parse (pattern : String) : Except GlobError Glob :=
  let cs := pattern.toList
  parseFrom (cs.length + 1) .strict none [] [] cs

/-- Reads a glob in which a bracket that is not closed stands for itself. -/
def parseLenient (pattern : String) : Except GlobError Glob :=
  let cs := pattern.toList
  parseFrom (cs.length + 1) .lenient none [] [] cs

end Glob

end ModuleGraph
