import ModuleGraph.Proofs.Path.Map
import ModuleGraph.Proofs.Walk.Inspect
import ModuleGraph.Walk.Run

set_option autoImplicit false

/-! # Walks as depth-first searches

`Walker.Search` is the walk as a relation, in the shape of a recursive search: a file is passed
over, or ends the search, or is taken into the state, and then its local imports are searched
before the files that wait behind it. The working list of `Walker.drain` is a flat form of the
pending calls: searching `xs ++ ys` is searching `xs` and then `ys` (`Search.append_ok`,
`Search.split`). So a walk is a search from its entries, with or without recursion
(`search_of_walk`, `walk_of_search`), and statements about walks are proved by induction on
searches.
-/

namespace ModuleGraph

namespace Walker

variable {w : Walker} {s s' s₁ s₂ : WalkState} {file : Path} {files rest xs ys : List Path}
  {events events' : List Event} {e : GraphError} {result : Except GraphError WalkState}

/-! ## One file -/

/-- A file that is passed over: it is done or excluded. -/
def Passes (w : Walker) (s : WalkState) (file : Path) : Prop :=
  s.isDone file = true ∨ w.exclude.excludes file = true

/-- The local imports of a file, as far as the file turns out to have any. -/
def localsOf (w : Walker) (file : Path) : List Path :=
  match w.inspect file with
  | .parsed _ imports => w.locals file imports
  | _ => []

/-- The files that come to wait once a file was looked at. -/
def follow (w : Walker) (file : Path) : List Path :=
  if w.options.recurse then w.localsOf file else []

theorem imports_of_mem_follow {target : Path} (h : target ∈ w.follow file) :
    w.Imports file target := by
  unfold follow localsOf at h
  split at h
  · split at h
    · rename_i hfile
      exact imports_of_mem_locals hfile h
    · cases h
  · cases h

/-- The state once a file was looked at, unless the file ends the walk. -/
inductive Takes (w : Walker) (s : WalkState) (file : Path) : WalkState → Prop
  | failed {reason : String} (h : w.inspect file = .unparsed reason) :
      Takes w s file (s.recordFailure file reason)
  | loaded {exports : List String} {imports : List (Path × List String)}
      (h : w.inspect file = .parsed exports imports) :
      Takes w s file (s.merge file exports imports)

theorem fails_or_takes (w : Walker) (s : WalkState) (file : Path) :
    (∃ e, w.Fails file e) ∨ ∃ s', w.Takes s file s' := by
  cases h : w.inspect file with
  | broken e => exact Or.inl ⟨e, inspect_eq_broken_iff.mp h⟩
  | unparsed reason => exact Or.inr ⟨_, .failed h⟩
  | parsed exports imports => exact Or.inr ⟨_, .loaded h⟩

theorem Takes.not_fails (h : w.Takes s file s') : ¬ w.Fails file e := by
  rw [← inspect_eq_broken_iff]
  cases h with
  | failed h => simp [h]
  | loaded h => simp [h]

theorem step_of_passes (h : w.Passes s file) : w.step s file = .skip s := by
  rw [step, if_pos]
  simpa [Passes] using h

theorem step_of_fails (hnew : ¬ w.Passes s file) (h : w.Fails file e) :
    w.step s file = .stop (w.eventsOf file) s e := by
  rw [step, if_neg (by simpa [Passes] using hnew), look_of_inspect (inspect_eq_broken_iff.mpr h)]

theorem step_of_takes (hnew : ¬ w.Passes s file) (h : w.Takes s file s') :
    w.step s file = .go (w.eventsOf file) s' (w.localsOf file) := by
  rw [step, if_neg (by simpa [Passes] using hnew), localsOf]
  cases h with
  | failed h => rw [look_of_inspect h, h]
  | loaded h => rw [look_of_inspect h, h]

/-! ## Searches -/

/-- `w.Search s files events result`: the search from the given files, in the given state,
asks the host the given questions and ends with the given result. -/
inductive Search (w : Walker) :
    WalkState → List Path → List Event → Except GraphError WalkState → Prop
  | nil (s : WalkState) : Search w s [] [] (.ok s)
  | skip {s : WalkState} {file : Path} {rest : List Path} {events : List Event}
      {result : Except GraphError WalkState} (hpass : w.Passes s file)
      (hrest : Search w s rest events result) : Search w s (file :: rest) events result
  | stop {s : WalkState} {file : Path} {rest : List Path} {e : GraphError}
      (hnew : ¬ w.Passes s file) (hfails : w.Fails file e) :
      Search w s (file :: rest) (w.eventsOf file) (.error e)
  | fail {s s₁ : WalkState} {file : Path} {rest : List Path} {events : List Event}
      {e : GraphError} (hnew : ¬ w.Passes s file) (htakes : w.Takes s file s₁)
      (hsub : Search w s₁ (w.follow file) events (.error e)) :
      Search w s (file :: rest) (w.eventsOf file ++ events) (.error e)
  | go {s s₁ s₂ : WalkState} {file : Path} {rest : List Path} {events events' : List Event}
      {result : Except GraphError WalkState} (hnew : ¬ w.Passes s file)
      (htakes : w.Takes s file s₁) (hsub : Search w s₁ (w.follow file) events (.ok s₂))
      (hrest : Search w s₂ rest events' result) :
      Search w s (file :: rest) (w.eventsOf file ++ (events ++ events')) result

namespace Search

/-- Induction on searches that succeed. -/
@[elab_as_elim]
theorem ok_induction
    {motive : ∀ s s' files events, w.Search s files events (.ok s') → Prop}
    (nil : ∀ s, motive s s [] [] (.nil s))
    (skip : ∀ {s s' file rest events} (hpass : w.Passes s file)
      (hrest : w.Search s rest events (.ok s')), motive s s' rest events hrest →
      motive s s' (file :: rest) events (.skip hpass hrest))
    (go : ∀ {s s₁ s₂ s' file rest events events'} (hnew : ¬ w.Passes s file)
      (htakes : w.Takes s file s₁) (hsub : w.Search s₁ (w.follow file) events (.ok s₂))
      (hrest : w.Search s₂ rest events' (.ok s')), motive s₁ s₂ (w.follow file) events hsub →
      motive s₂ s' rest events' hrest →
      motive s s' (file :: rest) (w.eventsOf file ++ (events ++ events'))
        (.go hnew htakes hsub hrest))
    (h : w.Search s files events (.ok s')) : motive s s' files events h := by
  have key : ∀ {s files events result} (h : w.Search s files events result) (s' : WalkState)
      (hr : result = .ok s'), motive s s' files events (hr ▸ h) := by
    intro s files events result h
    induction h with
    | nil s => rintro _ ⟨⟩; exact nil s
    | skip hpass hrest ih => rintro s' rfl; exact skip hpass hrest (ih s' rfl)
    | stop => rintro _ ⟨⟩
    | fail => rintro _ ⟨⟩
    | go hnew htakes hsub hrest ihsub ihrest =>
        rintro s' rfl
        exact go hnew htakes hsub hrest (ihsub _ rfl) (ihrest s' rfl)
  exact key h s' rfl

/-- Induction on searches that end with an error. -/
@[elab_as_elim]
theorem error_induction
    {motive : ∀ s files events, w.Search s files events (.error e) → Prop}
    (skip : ∀ {s file rest events} (hpass : w.Passes s file)
      (hrest : w.Search s rest events (.error e)), motive s rest events hrest →
      motive s (file :: rest) events (.skip hpass hrest))
    (stop : ∀ {s file rest} (hnew : ¬ w.Passes s file) (hfails : w.Fails file e),
      motive s (file :: rest) (w.eventsOf file) (.stop hnew hfails))
    (fail : ∀ {s s₁ file rest events} (hnew : ¬ w.Passes s file) (htakes : w.Takes s file s₁)
      (hsub : w.Search s₁ (w.follow file) events (.error e)),
      motive s₁ (w.follow file) events hsub →
      motive s (file :: rest) (w.eventsOf file ++ events) (.fail hnew htakes hsub))
    (go : ∀ {s s₁ s₂ file rest events events'} (hnew : ¬ w.Passes s file)
      (htakes : w.Takes s file s₁) (hsub : w.Search s₁ (w.follow file) events (.ok s₂))
      (hrest : w.Search s₂ rest events' (.error e)), motive s₂ rest events' hrest →
      motive s (file :: rest) (w.eventsOf file ++ (events ++ events'))
        (.go hnew htakes hsub hrest))
    (h : w.Search s files events (.error e)) : motive s files events h := by
  have key : ∀ {s files events result} (h : w.Search s files events result)
      (hr : result = .error e), motive s files events (hr ▸ h) := by
    intro s files events result h
    induction h with
    | nil => rintro ⟨⟩
    | skip hpass hrest ih => rintro rfl; exact skip hpass hrest (ih rfl)
    | stop hnew hfails => rintro ⟨⟩; exact stop hnew hfails
    | fail hnew htakes hsub ih => rintro ⟨⟩; exact fail hnew htakes hsub (ih rfl)
    | go hnew htakes hsub hrest _ ihrest =>
        rintro rfl
        exact go hnew htakes hsub hrest (ihrest rfl)
  exact key h rfl

/-! ## Searching one list after another -/

theorem append_error (h : w.Search s xs events (.error e)) (ys : List Path) :
    w.Search s (xs ++ ys) events (.error e) := by
  induction h using error_induction with
  | skip hpass _ ih => exact .skip hpass ih
  | stop hnew hfails => exact .stop hnew hfails
  | fail hnew htakes hsub _ => exact .fail hnew htakes hsub
  | go hnew htakes hsub _ ih => exact .go hnew htakes hsub ih

theorem append_ok (h : w.Search s xs events (.ok s')) (hys : w.Search s' ys events' result) :
    w.Search s (xs ++ ys) (events ++ events') result := by
  induction h using ok_induction with
  | nil s => exact hys
  | skip hpass _ ih => exact .skip hpass (ih hys)
  | go hnew htakes hsub _ _ ih =>
      rw [List.append_assoc, List.append_assoc]
      exact .go hnew htakes hsub (ih hys)

/-- What is searched as one list was searched part by part. -/
theorem split (h : w.Search s (xs ++ ys) events result) :
    (∃ e, result = .error e ∧ w.Search s xs events (.error e)) ∨
      ∃ before after s', events = before ++ after ∧ w.Search s xs before (.ok s')
        ∧ w.Search s' ys after result := by
  generalize hfiles : xs ++ ys = files at h
  induction h generalizing xs with
  | nil s =>
      obtain ⟨rfl, rfl⟩ := List.append_eq_nil_iff.mp hfiles
      exact Or.inr ⟨[], [], s, rfl, .nil s, .nil s⟩
  | skip hpass hrest ih =>
      cases xs with
      | nil =>
          cases hfiles
          exact Or.inr ⟨[], _, _, rfl, .nil _, .skip hpass hrest⟩
      | cons x xs =>
          cases hfiles
          rcases ih rfl with ⟨e, rfl, hx⟩ | ⟨before, after, s', rfl, hx, hy⟩
          · exact Or.inl ⟨e, rfl, .skip hpass hx⟩
          · exact Or.inr ⟨before, after, s', rfl, .skip hpass hx, hy⟩
  | stop hnew hfails =>
      cases xs with
      | nil =>
          cases hfiles
          exact Or.inr ⟨[], _, _, rfl, .nil _, .stop hnew hfails⟩
      | cons x xs =>
          cases hfiles
          exact Or.inl ⟨_, rfl, .stop hnew hfails⟩
  | fail hnew htakes hsub _ =>
      cases xs with
      | nil =>
          cases hfiles
          exact Or.inr ⟨[], _, _, rfl, .nil _, .fail hnew htakes hsub⟩
      | cons x xs =>
          cases hfiles
          exact Or.inl ⟨_, rfl, .fail hnew htakes hsub⟩
  | go hnew htakes hsub hrest _ ih =>
      cases xs with
      | nil =>
          cases hfiles
          exact Or.inr ⟨[], _, _, rfl, .nil _, .go hnew htakes hsub hrest⟩
      | cons x xs =>
          cases hfiles
          rcases ih rfl with ⟨e, rfl, hx⟩ | ⟨before, after, s', rfl, hx, hy⟩
          · exact Or.inl ⟨e, rfl, .go hnew htakes hsub hx⟩
          · refine Or.inr ⟨_, after, s', ?_, .go hnew htakes hsub hx, hy⟩
            rw [List.append_assoc, List.append_assoc]

end Search

/-! ## Working lists -/

section Drain

variable {next : List Event → WalkState → List Path → Option Run}

theorem drainWith_of_passes (h : w.Passes s file) :
    w.drainWith next events s (file :: rest) = w.drainWith next events s rest := by
  rw [drainWith, step_of_passes h]

theorem drainWith_of_fails (hnew : ¬ w.Passes s file) (h : w.Fails file e) :
    w.drainWith next events s (file :: rest) = some ⟨events ++ w.eventsOf file, .error e⟩ := by
  rw [drainWith, step_of_fails hnew h]

theorem drainWith_of_takes (hnew : ¬ w.Passes s file) (h : w.Takes s file s') :
    w.drainWith next events s (file :: rest)
      = next (events ++ w.eventsOf file) s' (w.localsOf file ++ rest) := by
  rw [drainWith, step_of_takes hnew h]

theorem follow_of_recurse (h : w.options.recurse = true) (file : Path) :
    w.follow file = w.localsOf file := by
  rw [follow, if_pos h]

/-- `w.Found s files events run`: the run is a search that comes after the given events. -/
def Found (w : Walker) (s : WalkState) (files : List Path) (events : List Event) (run : Run) :
    Prop :=
  ∃ more, run.events = events ++ more ∧ w.Search s files more run.result

/-- A search of the imports in front of the waiting files is a search of the file itself. -/
theorem Found.go (hnew : ¬ w.Passes s file) (h : w.Takes s file s') {run : Run}
    (hrun : w.Found s' (w.follow file ++ rest) (events ++ w.eventsOf file) run) :
    w.Found s (file :: rest) events run := by
  obtain ⟨more, hevents, hsearch⟩ := hrun
  refine ⟨w.eventsOf file ++ more, by rw [hevents, List.append_assoc], ?_⟩
  rcases hsearch.split with ⟨e, he, hsub⟩ | ⟨before, after, s₂, rfl, hsub, hrest⟩
  · rw [he]
    exact .fail hnew h hsub
  · exact .go hnew h hsub hrest

theorem found_of_drainWith (hrec : w.options.recurse = true)
    (hnext : ∀ events s files run, next events s files = some run → w.Found s files events run)
    {run : Run} (h : w.drainWith next events s files = some run) :
    w.Found s files events run := by
  induction files with
  | nil =>
      cases h
      exact ⟨[], by simp, .nil s⟩
  | cons file rest ih =>
      by_cases hpass : w.Passes s file
      · rw [drainWith_of_passes hpass] at h
        obtain ⟨more, hevents, hsearch⟩ := ih h
        exact ⟨more, hevents, .skip hpass hsearch⟩
      · rcases w.fails_or_takes s file with ⟨e, hfails⟩ | ⟨s', htakes⟩
        · rw [drainWith_of_fails hpass hfails] at h
          cases h
          exact ⟨_, rfl, .stop hpass hfails⟩
        · rw [drainWith_of_takes hpass htakes] at h
          refine Found.go hpass htakes ?_
          rw [follow_of_recurse hrec]
          exact hnext _ _ _ _ h

theorem found_of_drain (hrec : w.options.recurse = true) {budget : Nat} {run : Run}
    (h : w.drain budget events s files = some run) : w.Found s files events run := by
  induction budget generalizing events s files run with
  | zero => exact found_of_drainWith hrec (fun _ _ _ _ hnone => by cases hnone) h
  | succ budget ih => exact found_of_drainWith hrec (fun _ _ _ _ => ih) h

theorem drain_of_passes (h : w.Passes s file) (budget : Nat) :
    w.drain budget events s (file :: rest) = w.drain budget events s rest := by
  cases budget <;> exact drainWith_of_passes h

theorem drain_of_fails (hnew : ¬ w.Passes s file) (h : w.Fails file e) (budget : Nat) :
    w.drain budget events s (file :: rest) = some ⟨events ++ w.eventsOf file, .error e⟩ := by
  cases budget <;> exact drainWith_of_fails hnew h

theorem drain_of_takes (hnew : ¬ w.Passes s file) (h : w.Takes s file s') (budget : Nat) :
    w.drain (budget + 1) events s (file :: rest)
      = w.drain budget (events ++ w.eventsOf file) s' (w.localsOf file ++ rest) :=
  drainWith_of_takes hnew h

/-- A search that succeeds can be carried out in front of any other waiting files. -/
theorem drain_of_search_ok (hrec : w.options.recurse = true)
    (h : w.Search s xs events' (.ok s')) {budget : Nat} {run : Run}
    (hys : w.drain budget (events ++ events') s' ys = some run) :
    ∃ budget, w.drain budget events s (xs ++ ys) = some run := by
  induction h using Search.ok_induction generalizing events ys budget with
  | nil s => exact ⟨budget, by simpa using hys⟩
  | skip hpass _ ih =>
      obtain ⟨b, hb⟩ := ih hys
      exact ⟨b, by rw [List.cons_append, drain_of_passes hpass, hb]⟩
  | go hnew htakes _ _ ihsub ihrest =>
      rw [← List.append_assoc, ← List.append_assoc] at hys
      obtain ⟨b, hb⟩ := ihrest hys
      obtain ⟨b', hb'⟩ := ihsub hb
      refine ⟨b' + 1, ?_⟩
      rw [List.cons_append, drain_of_takes hnew htakes, ← follow_of_recurse hrec, hb']

theorem drain_of_search_error (hrec : w.options.recurse = true)
    (h : w.Search s xs events' (.error e)) (events : List Event) (ys : List Path) :
    ∃ budget, w.drain budget events s (xs ++ ys) = some ⟨events ++ events', .error e⟩ := by
  induction h using Search.error_induction generalizing events ys with
  | skip hpass _ ih =>
      obtain ⟨b, hb⟩ := ih events ys
      exact ⟨b, by rw [List.cons_append, drain_of_passes hpass, hb]⟩
  | stop hnew hfails => exact ⟨0, drain_of_fails hnew hfails 0⟩
  | fail hnew htakes _ ih =>
      obtain ⟨b, hb⟩ := ih (events ++ w.eventsOf _) (_ ++ ys)
      refine ⟨b + 1, ?_⟩
      rw [List.cons_append, drain_of_takes hnew htakes, ← follow_of_recurse hrec, hb,
        List.append_assoc]
  | go hnew htakes hsub _ ih =>
      obtain ⟨b, hb⟩ := ih (events ++ w.eventsOf _ ++ _) ys
      obtain ⟨b', hb'⟩ := drain_of_search_ok hrec hsub hb
      refine ⟨b' + 1, ?_⟩
      rw [List.cons_append, drain_of_takes hnew htakes, ← follow_of_recurse hrec, hb']
      simp only [List.append_assoc]

/-! ## Budgets -/

theorem drainWith_mono {next' : List Event → WalkState → List Path → Option Run}
    (hnext : ∀ events s files run, next events s files = some run →
      next' events s files = some run) {run : Run}
    (h : w.drainWith next events s files = some run) :
    w.drainWith next' events s files = some run := by
  induction files generalizing s with
  | nil => exact h
  | cons file rest ih =>
      rw [drainWith] at h ⊢
      cases hstep : w.step s file with
      | skip s' =>
          rw [hstep] at h
          exact ih h
      | stop more s' e => simpa [hstep] using h
      | go more s' files =>
          rw [hstep] at h
          exact hnext _ _ _ _ h

theorem drain_succ {budget : Nat} {run : Run} (h : w.drain budget events s files = some run) :
    w.drain (budget + 1) events s files = some run := by
  induction budget generalizing events s files run with
  | zero => exact drainWith_mono (fun _ _ _ _ hnone => by cases hnone) h
  | succ budget ih => exact drainWith_mono (fun _ _ _ _ => ih) h

/-- A larger budget changes nothing once the budget suffices. -/
theorem drain_mono {budget budget' : Nat} (hle : budget ≤ budget') {run : Run}
    (h : w.drain budget events s files = some run) :
    w.drain budget' events s files = some run := by
  induction hle with
  | refl => exact h
  | step _ ih => exact drain_succ ih

end Drain

/-! ## Entries -/

section Entries

variable {entry : Path} {entries : List Path} {run : Run}

theorem found_of_walkEntry {budget : Nat} (h : w.walkEntry budget events s entry = some run) :
    w.Found s [entry.absolutize w.cwd] events run := by
  unfold walkEntry at h
  by_cases hrec : w.options.recurse = true
  · rw [if_pos hrec] at h
    exact found_of_drain hrec h
  · have hfollow : w.follow (entry.absolutize w.cwd) = [] := by rw [follow, if_neg hrec]
    rw [if_neg hrec] at h
    by_cases hpass : w.Passes s (entry.absolutize w.cwd)
    · rw [drainWith_of_passes hpass] at h
      cases h
      exact ⟨[], by simp, .skip hpass (.nil s)⟩
    · rcases w.fails_or_takes s (entry.absolutize w.cwd) with ⟨e, hfails⟩ | ⟨s', htakes⟩
      · rw [drainWith_of_fails hpass hfails] at h
        cases h
        exact ⟨_, rfl, .stop hpass hfails⟩
      · rw [drainWith_of_takes hpass htakes] at h
        cases h
        refine Found.go hpass htakes ⟨[], by simp, ?_⟩
        rw [hfollow]
        exact .nil s'

/-- An entry that is searched is walked, with every budget from some number on. -/
theorem walkEntry_of_search (h : w.Search s [entry.absolutize w.cwd] events' result)
    (events : List Event) :
    ∃ budget, ∀ budget' ≥ budget,
      w.walkEntry budget' events s entry = some ⟨events ++ events', result⟩ := by
  by_cases hrec : w.options.recurse = true
  · have hdrain : ∃ budget, w.drain budget events s [entry.absolutize w.cwd]
        = some ⟨events ++ events', result⟩ := by
      cases result with
      | error e => simpa using drain_of_search_error hrec h events []
      | ok s' =>
          have hnil : w.drain 0 (events ++ events') s' [] = some ⟨events ++ events', .ok s'⟩ := rfl
          simpa using drain_of_search_ok hrec h hnil
    obtain ⟨budget, hb⟩ := hdrain
    refine ⟨budget, fun budget' hle => ?_⟩
    unfold walkEntry
    rw [if_pos hrec]
    exact drain_mono hle hb
  · have hfollow : w.follow (entry.absolutize w.cwd) = [] := by rw [follow, if_neg hrec]
    refine ⟨0, fun budget' _ => ?_⟩
    unfold walkEntry
    rw [if_neg hrec]
    cases h with
    | skip hpass hrest =>
        cases hrest
        rw [drainWith_of_passes hpass]
        simp [drainWith]
    | stop hnew hfails => exact drainWith_of_fails hnew hfails
    | fail _ _ hsub =>
        rw [hfollow] at hsub
        cases hsub
    | go hnew htakes hsub hrest =>
        rw [hfollow] at hsub
        cases hsub
        cases hrest
        rw [drainWith_of_takes hnew htakes]
        simp

/-- The files that the entries of a walk stand for. -/
def starts (w : Walker) : List Path := w.options.files.map (·.absolutize w.cwd)

theorem found_of_walkEntries {budget : Nat}
    (h : w.walkEntries budget events s entries = some run) :
    w.Found s (entries.map (·.absolutize w.cwd)) events run := by
  induction entries generalizing events s with
  | nil =>
      cases h
      exact ⟨[], by simp, .nil s⟩
  | cons entry more ih =>
      rw [walkEntries] at h
      cases hentry : w.walkEntry budget events s entry with
      | none => simp [hentry] at h
      | some first =>
          obtain ⟨asked, hasked, hsearch⟩ := found_of_walkEntry hentry
          obtain ⟨firstEvents, firstResult⟩ := first
          cases firstResult with
          | error e =>
              simp only [hentry] at h
              cases h
              exact ⟨asked, hasked, hsearch.append_error _⟩
          | ok s' =>
              simp only [hentry] at h
              obtain ⟨rest, hrest, hsearch'⟩ := ih h
              refine ⟨asked ++ rest, ?_, hsearch.append_ok hsearch'⟩
              rw [hrest, ← List.append_assoc, ← hasked]

theorem walkEntries_of_search
    (h : w.Search s (entries.map (·.absolutize w.cwd)) events' result) (events : List Event) :
    ∃ budget, ∀ budget' ≥ budget,
      w.walkEntries budget' events s entries = some ⟨events ++ events', result⟩ := by
  induction entries generalizing events s events' with
  | nil =>
      cases h
      exact ⟨0, fun _ _ => by simp [walkEntries]⟩
  | cons entry more ih =>
      rw [List.map_cons, ← List.singleton_append] at h
      rcases h.split with ⟨e, rfl, hentry⟩ | ⟨before, after, s', rfl, hentry, hmore⟩
      · obtain ⟨budget, hb⟩ := walkEntry_of_search hentry events
        exact ⟨budget, fun budget' hle => by rw [walkEntries, hb budget' hle]⟩
      · obtain ⟨budget, hb⟩ := walkEntry_of_search hentry events
        obtain ⟨budget₂, hb₂⟩ := ih hmore (events ++ before)
        refine ⟨max budget budget₂, fun budget' hle => ?_⟩
        rw [walkEntries, hb budget' (Nat.le_trans (Nat.le_max_left _ _) hle)]
        simp only
        rw [hb₂ budget' (Nat.le_trans (Nat.le_max_right _ _) hle), List.append_assoc]

/-- A search from entries has one outcome. -/
theorem Search.unique {result' : Except GraphError WalkState}
    (h : w.Search s (entries.map (·.absolutize w.cwd)) events result)
    (h' : w.Search s (entries.map (·.absolutize w.cwd)) events' result') :
    events = events' ∧ result = result' := by
  obtain ⟨budget, hb⟩ := walkEntries_of_search h []
  obtain ⟨budget', hb'⟩ := walkEntries_of_search h' []
  have hrun := hb (max budget budget') (Nat.le_max_left _ _)
  rw [hb' (max budget budget') (Nat.le_max_right _ _)] at hrun
  cases hrun
  exact ⟨rfl, rfl⟩

end Entries

/-- **A walk is a search from its entries.** -/
theorem search_of_walk {budget : Nat} {run : Run} (h : w.walk budget = some run) :
    w.Search {} w.starts run.events run.result := by
  obtain ⟨more, hmore, hsearch⟩ := found_of_walkEntries h
  rw [hmore]
  exact hsearch

/-- A search from the entries is what a walk comes to with every sufficient budget. -/
theorem walk_of_search (h : w.Search {} w.starts events result) :
    ∃ budget, ∀ budget' ≥ budget, w.walk budget' = some ⟨events, result⟩ := by
  obtain ⟨budget, hb⟩ := walkEntries_of_search h []
  exact ⟨budget, hb⟩

end Walker

end ModuleGraph
