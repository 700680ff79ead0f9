import Mathlib.Logic.Relation
import ModuleGraph.Proofs.Walk.Search

set_option autoImplicit false

/-! # A walk, turn by turn

A search says how a walk ends. What holds on the way is said of the single turns of its loop:
between two of them a walk is at some `Progress`, and a `Turn` takes up the next entry, passes
over a file, or takes a file into the state. Every walk goes through turns from the start to its
end, or to a file that stops it (`turns_of_walk`), so whatever each turn keeps holds all along
every walk, also along one that fails later.
-/

namespace ModuleGraph

/-- How far a walk has come: what it asked so far, what it found, the files that wait, and the
entries that were not taken up yet. -/
structure Progress where
  events : List Event := []
  state : WalkState := {}
  waiting : List Path := []
  entries : List Path

namespace Walker

variable {w : Walker} {s s' : WalkState} {file : Path} {files waiting entries : List Path}
  {before events more : List Event} {e : GraphError} {result : Except GraphError WalkState}

/-! ## What one file does -/

/-- A file is passed over, or it stops the walk, or it is taken. Only a file that is taken changes
the state. -/
theorem step_cases (w : Walker) (s : WalkState) (file : Path) :
    (w.Passes s file ∧ w.step s file = .skip s) ∨
    (∃ e, ¬ w.Passes s file ∧ w.Fails file e ∧ w.step s file = .stop (w.eventsOf file) s e) ∨
    ∃ s', ¬ w.Passes s file ∧ w.Takes s file s'
      ∧ w.step s file = .go (w.eventsOf file) s' (w.localsOf file) := by
  by_cases hpass : w.Passes s file
  · exact Or.inl ⟨hpass, step_of_passes hpass⟩
  · rcases w.fails_or_takes s file with ⟨e, hfails⟩ | ⟨s', htakes⟩
    · exact Or.inr (Or.inl ⟨e, hpass, hfails, step_of_fails hpass hfails⟩)
    · exact Or.inr (Or.inr ⟨s', hpass, htakes, step_of_takes hpass htakes⟩)

theorem takes_of_step (h : w.step s file = .go more s' files) :
    ¬ w.Passes s file ∧ w.Takes s file s' ∧ more = w.eventsOf file ∧ files = w.localsOf file := by
  rcases w.step_cases s file with ⟨-, hstep⟩ | ⟨e, -, -, hstep⟩ | ⟨t, hnew, htakes, hstep⟩
  · rw [hstep] at h
    cases h
  · rw [hstep] at h
    cases h
  · rw [hstep] at h
    cases h
    exact ⟨hnew, htakes, rfl, rfl⟩

theorem fails_of_step (h : w.step s file = .stop more s' e) :
    ¬ w.Passes s file ∧ w.Fails file e ∧ more = w.eventsOf file ∧ s' = s := by
  rcases w.step_cases s file with ⟨-, hstep⟩ | ⟨e', hnew, hfails, hstep⟩ | ⟨t, -, -, hstep⟩
  · rw [hstep] at h
    cases h
  · rw [hstep] at h
    cases h
    exact ⟨hnew, hfails, rfl, rfl⟩
  · rw [hstep] at h
    cases h

theorem passes_of_step (h : w.step s file = .skip s') : w.Passes s file ∧ s' = s := by
  rcases w.step_cases s file with ⟨hpass, hstep⟩ | ⟨e, -, -, hstep⟩ | ⟨t, -, -, hstep⟩
  · rw [hstep] at h
    cases h
    exact ⟨hpass, rfl⟩
  · rw [hstep] at h
    cases h
  · rw [hstep] at h
    cases h

/-! ## Turns -/

/-- One turn of a walk. The files that a file leads to come to wait in front of all others, or
not at all when the walk does not recurse. -/
inductive Turn (w : Walker) : Progress → Progress → Prop
  | enter {events : List Event} {s : WalkState} {entry : Path} {entries : List Path} :
      Turn w ⟨events, s, [], entry :: entries⟩ ⟨events, s, [entry.absolutize w.cwd], entries⟩
  | skip {events : List Event} {s s' : WalkState} {file : Path} {waiting entries : List Path}
      (h : w.step s file = .skip s') :
      Turn w ⟨events, s, file :: waiting, entries⟩ ⟨events, s', waiting, entries⟩
  | go {events more : List Event} {s s' : WalkState} {file : Path}
      {files waiting entries : List Path} (h : w.step s file = .go more s' files) :
      Turn w ⟨events, s, file :: waiting, entries⟩
        ⟨events ++ more, s', (if w.options.recurse then files else []) ++ waiting, entries⟩

def start (w : Walker) : Progress := { entries := w.options.files }

/-- `w.Reaches c`: the walk comes to the given progress, after some number of turns. -/
def Reaches (w : Walker) (c : Progress) : Prop := Relation.ReflTransGen w.Turn w.start c

/-- `w.StopsAt c events e`: at the given progress, the next file stops the walk with the error
`e`, after the given events. -/
def StopsAt (w : Walker) (c : Progress) (events : List Event) (e : GraphError) : Prop :=
  ∃ file waiting more s, c.waiting = file :: waiting ∧ w.step c.state file = .stop more s e
    ∧ events = c.events ++ more

theorem Turn.of_takes (hnew : ¬ w.Passes s file) (h : w.Takes s file s') :
    w.Turn ⟨before, s, file :: waiting, entries⟩
      ⟨before ++ w.eventsOf file, s', w.follow file ++ waiting, entries⟩ :=
  .go (step_of_takes hnew h)

/-- What each turn keeps holds wherever a walk comes to. -/
theorem Reaches.induction {P : Progress → Prop} (hstart : P w.start)
    (hturn : ∀ c c', P c → w.Turn c c' → P c') {c : Progress} (h : w.Reaches c) : P c := by
  induction h with
  | refl => exact hstart
  | tail _ hlast ih => exact hturn _ _ ih hlast

/-! ## Searches in turns -/

theorem turns_of_search_ok (h : w.Search s files events (.ok s')) (before : List Event)
    (waiting entries : List Path) :
    Relation.ReflTransGen w.Turn ⟨before, s, files ++ waiting, entries⟩
      ⟨before ++ events, s', waiting, entries⟩ := by
  induction h using Search.ok_induction generalizing before waiting with
  | nil s =>
      rw [List.append_nil]
      exact .refl
  | skip hpass _ ih => exact .head (.skip (step_of_passes hpass)) (ih before waiting)
  | @go s s₁ s₂ s' file rest events events' hnew htakes _ _ ihsub ihrest =>
      -- The imports of the file come to wait in front of the rest, so they are walked first.
      have hfirst : w.Turn ⟨before, s, (file :: rest) ++ waiting, entries⟩
          ⟨before ++ w.eventsOf file, s₁, w.follow file ++ (rest ++ waiting), entries⟩ :=
        .of_takes hnew htakes
      have hsub := ihsub (before ++ w.eventsOf file) (rest ++ waiting)
      have hrest := ihrest (before ++ w.eventsOf file ++ events) waiting
      rw [← List.append_assoc, ← List.append_assoc]
      exact .head hfirst (hsub.trans hrest)

theorem turns_of_search_error (h : w.Search s files events (.error e)) (before : List Event)
    (waiting entries : List Path) :
    ∃ c, Relation.ReflTransGen w.Turn ⟨before, s, files ++ waiting, entries⟩ c
      ∧ w.StopsAt c (before ++ events) e := by
  induction h using Search.error_induction generalizing before waiting with
  | skip hpass _ ih =>
      obtain ⟨c, hc, hstop⟩ := ih before waiting
      exact ⟨c, .head (.skip (step_of_passes hpass)) hc, hstop⟩
  | stop hnew hfails => exact ⟨_, .refl, _, _, _, _, rfl, step_of_fails hnew hfails, rfl⟩
  | @fail s s₁ file rest events hnew htakes _ ih =>
      obtain ⟨c, hc, hstop⟩ := ih (before ++ w.eventsOf file) (rest ++ waiting)
      rw [List.append_assoc] at hstop
      exact ⟨c, .head (.of_takes hnew htakes) hc, hstop⟩
  | @go s s₁ s₂ file rest events events' hnew htakes hsub _ ih =>
      obtain ⟨c, hc, hstop⟩ := ih (before ++ w.eventsOf file ++ events) waiting
      have hfirst := turns_of_search_ok hsub (before ++ w.eventsOf file) (rest ++ waiting) entries
      rw [List.append_assoc, List.append_assoc] at hstop
      exact ⟨c, .head (.of_takes hnew htakes) (hfirst.trans hc), hstop⟩

/-- The end of a walk: its state is found when nothing waits any more, or a file stops it. -/
def EndsWith (w : Walker) (c : Progress) (events : List Event) :
    Except GraphError WalkState → Prop
  | .ok s => c = ⟨events, s, [], []⟩
  | .error e => w.StopsAt c events e

theorem turns_of_search (h : w.Search s (entries.map (·.absolutize w.cwd)) events result)
    (before : List Event) :
    ∃ c, Relation.ReflTransGen w.Turn ⟨before, s, [], entries⟩ c
      ∧ w.EndsWith c (before ++ events) result := by
  induction entries generalizing s before events with
  | nil =>
      cases h
      exact ⟨_, .refl, by simp [EndsWith]⟩
  | cons entry entries ih =>
      rw [List.map_cons, ← List.singleton_append] at h
      -- An entry is taken up when nothing waits, so the search splits behind each of them.
      rcases h.split with ⟨e, rfl, hentry⟩ | ⟨first, later, s₁, rfl, hentry, hentries⟩
      · obtain ⟨c, hc, hstop⟩ := turns_of_search_error hentry before [] entries
        exact ⟨c, .head .enter hc, hstop⟩
      · obtain ⟨c, hc, hend⟩ := ih hentries (before ++ first)
        have hfirst := turns_of_search_ok hentry before [] entries
        rw [List.append_assoc] at hend
        exact ⟨c, .head .enter (hfirst.trans hc), hend⟩

/-- **A walk goes from its start to its end in turns.** -/
theorem turns_of_walk {budget : Nat} {run : Run} (h : w.walk budget = some run) :
    ∃ c, w.Reaches c ∧ w.EndsWith c run.events run.result :=
  turns_of_search (search_of_walk h) []

end Walker

end ModuleGraph
