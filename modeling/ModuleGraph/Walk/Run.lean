import ModuleGraph.Walk.Inspect
import ModuleGraph.Walk.State

set_option autoImplicit false

/-! # Walking

A walk goes through its entries one after the other. The local imports of a file are walked
before whatever else is waiting, so that the files come depth first, in the order of their
declarations. Files that are done or excluded are passed over.

Every file that is read is read once, so a walk ends when there are finitely many files to
read. The number of reads that are still allowed is the `budget` of `drain` and `walk`;
there is no answer when it does not suffice.
-/

namespace ModuleGraph

/-- How a walk went: what it asked of its host, and what came of it. -/
structure Run where
  events : List Event := []
  result : Except GraphError WalkState

/-- What happens when the next waiting file is taken up, with the state that it leaves. -/
inductive Step where
  /-- The file is passed over. -/
  | skip (state : WalkState)
  /-- The walk ends with an error. -/
  | stop (events : List Event) (state : WalkState) (error : GraphError)
  /-- The walk goes on, and more files come to wait. -/
  | go (events : List Event) (state : WalkState) (files : List Path)

def Step.state : Step → WalkState
  | .skip s => s
  | .stop _ s _ => s
  | .go _ s _ => s

namespace Walker

def step (w : Walker) (s : WalkState) (file : Path) : Step :=
  if s.isDone file || w.exclude.excludes file then .skip s
  else
    match w.look file with
    | (events, .broken e) => .stop events s e
    | (events, .unparsed reason) => .go events (s.recordFailure file reason) []
    | (events, .parsed exports imports) =>
      .go events (s.merge file exports imports) (w.locals file imports)

/-- Passes over files until one is read, and leaves the rest to `next`. -/
def drainWith (w : Walker) (next : List Event → WalkState → List Path → Option Run)
    (events : List Event) (s : WalkState) : List Path → Option Run
  | [] => some ⟨events, .ok s⟩
  | file :: rest =>
    match w.step s file with
    | .skip s => drainWith w next events s rest
    | .stop more _ e => some ⟨events ++ more, .error e⟩
    | .go more s files => next (events ++ more) s (files ++ rest)

/-- Walks all waiting files and what they import, with at most `budget` reads before the
last one. -/
def drain (w : Walker) : Nat → List Event → WalkState → List Path → Option Run
  | 0 => w.drainWith fun _ _ _ => none
  | budget + 1 => w.drainWith (w.drain budget)

/-- Walks one entry: with what it imports, or alone. -/
def walkEntry (w : Walker) (budget : Nat) (events : List Event) (s : WalkState) (entry : Path) :
    Option Run :=
  let file := entry.absolutize w.cwd
  if w.options.recurse then w.drain budget events s [file]
  else w.drainWith (fun events s _ => some ⟨events, .ok s⟩) events s [file]

/-- Walks entries one after the other, up to the first error. -/
def walkEntries (w : Walker) (budget : Nat) (events : List Event) (s : WalkState) :
    List Path → Option Run
  | [] => some ⟨events, .ok s⟩
  | entry :: more =>
    match w.walkEntry budget events s entry with
    | some ⟨events, .ok s⟩ => walkEntries w budget events s more
    | stopped => stopped

def walk (w : Walker) (budget : Nat) : Option Run :=
  w.walkEntries budget [] {} w.options.files

end Walker

def Run.output (run : Run) (mode : OutputMode) : Except GraphError Output :=
  run.result.map fun s => s.toGraph.toOutput mode

end ModuleGraph
