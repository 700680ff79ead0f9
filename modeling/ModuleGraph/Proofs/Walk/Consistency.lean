import ModuleGraph.Proofs.Walk.DepthFirst
import ModuleGraph.Proofs.Walk.Turns

set_option autoImplicit false

/-! # The parts of a state agree, all along a walk

The five fields of a state are changed by two operations, and `Walker.Consistent` says how they
belong together: the loaded files are the keys of the exports, no file is both loaded and
unparsed, and the statistics have one line for each unparsed file, in the order in which these
were read. The files that were read are exactly those that are loaded or unparsed. One file that
is taken keeps all of this (`Consistent.takes`), so it holds after any number of turns of any
walk (`Reaches.consistent`).
-/

namespace ModuleGraph

def Progress.reads (c : Progress) : List Path := c.events.filterMap Event.read?

namespace Walker

variable {w : Walker} {s s' : WalkState} {file : Path} {files reads : List Path}
  {reason : String} {exports : List String} {imports : List (Path × List String)}

/-! ## Files that do not parse -/

/-- Why a file does not parse, if it can be read and does not. -/
def parseFailure? (w : Walker) (file : Path) : Option String :=
  match w.host.read file with
  | .error _ => none
  | .ok source =>
    match w.host.parse file source with
    | .error reason => some reason
    | .ok _ => none

/-- Those of the given files that do not parse, in their order and with the reasons. -/
def failures (w : Walker) (files : List Path) : List (Path × String) :=
  files.filterMap fun file => (w.parseFailure? file).map fun reason => (file, reason)

/-- The line that the statistics have for a file that does not parse. -/
def failureLine (file : Path) (reason : String) : String :=
  "Failed to parse " ++ file.text ++ ": " ++ reason

def failureLines (w : Walker) (files : List Path) : List String :=
  (w.failures files).map fun failure => failureLine failure.1 failure.2

@[simp] theorem failures_append (xs ys : List Path) :
    w.failures (xs ++ ys) = w.failures xs ++ w.failures ys := List.filterMap_append

@[simp] theorem failureLines_append (xs ys : List Path) :
    w.failureLines (xs ++ ys) = w.failureLines xs ++ w.failureLines ys := by
  simp [failureLines]

theorem failures_filter (keep : Path → Bool) (files : List Path) :
    w.failures (files.filter keep) = (w.failures files).filter fun failure => keep failure.1 := by
  rw [failures, failures, List.filterMap_filter, List.filter_filterMap]
  congr 1
  funext file
  cases hkeep : keep file <;> cases w.parseFailure? file <;> simp [Option.filter, hkeep]

theorem mem_failures {failure : Path × String} :
    failure ∈ w.failures files ↔
      failure.1 ∈ files ∧ w.parseFailure? failure.1 = some failure.2 := by
  obtain ⟨file, reason⟩ := failure
  simp only [failures, List.mem_filterMap, Option.map_eq_some_iff, Prod.mk.injEq]
  constructor
  · rintro ⟨file', hfile, reason', hreason, rfl, rfl⟩
    exact ⟨hfile, hreason⟩
  · rintro ⟨hfile, hreason⟩
    exact ⟨file, hfile, reason, hreason, rfl, rfl⟩

theorem parseFailure?_of_unparsed (h : w.inspect file = .unparsed reason) :
    w.parseFailure? file = some reason := by
  obtain ⟨source, hread, hparse, -⟩ := inspect_eq_unparsed_iff.mp h
  simp [parseFailure?, hread, hparse]

theorem parseFailure?_of_parsed (h : w.inspect file = .parsed exports imports) :
    w.parseFailure? file = none := by
  obtain ⟨facts, source, hread, hparse⟩ := hasFacts_of_parsed h
  simp [parseFailure?, hread, hparse]

theorem failures_of_unparsed (h : w.inspect file = .unparsed reason) :
    w.failures [file] = [(file, reason)] := by
  simp [failures, parseFailure?_of_unparsed h]

theorem failures_of_parsed (h : w.inspect file = .parsed exports imports) :
    w.failures [file] = [] := by
  simp [failures, parseFailure?_of_parsed h]

/-! ## Consistent states -/

/-- The state belongs to a walk that has read the given files, in this order, and was not stopped
by one of them. -/
structure Consistent (w : Walker) (reads : List Path) (s : WalkState) : Prop where
  keys_exports : s.exports.keys = s.loaded
  disjoint : ∀ p, s.loaded.has p = true → s.unparsed.has p = false
  stats : s.stats = w.failureLines reads
  unparsed : ((w.failures reads).map (·.1)).Perm s.unparsed
  lenient : ∀ f ∈ s.unparsed, w.options.isStrict f = false
  notExcluded : ∀ f, s.Lists f → w.exclude.excludes f = false
  perm_reads : reads.Perm (s.loaded ++ s.unparsed)
  distinct : reads.Pairwise fun p q => p.same q = false

theorem consistent_empty (w : Walker) : w.Consistent [] {} :=
  ⟨rfl, fun _ _ => rfl, rfl, .refl _, by simp, fun _ hf => absurd hf WalkState.not_lists_empty,
    .refl _, .nil⟩

theorem Consistent.nodup (h : w.Consistent reads s) : reads.Nodup := by
  refine h.distinct.imp fun {p q} hne heq => ?_
  rw [heq, Path.same_refl] at hne
  cases hne

theorem loaded_has_eq_false (hnew : ¬ w.Passes s file) : s.loaded.has file = false := by
  have hdone := not_isDone_of_not_passes hnew
  rw [WalkState.isDone, Bool.or_eq_false_iff] at hdone
  exact hdone.1

theorem unparsed_has_eq_false (hnew : ¬ w.Passes s file) : s.unparsed.has file = false := by
  have hdone := not_isDone_of_not_passes hnew
  rw [WalkState.isDone, Bool.or_eq_false_iff] at hdone
  exact hdone.2

/-- A new file is none of those that were read before. -/
theorem Consistent.pairwise_concat (h : w.Consistent reads s) (hnew : ¬ w.Passes s file) :
    (reads ++ [file]).Pairwise fun p q => p.same q = false := by
  refine List.pairwise_append.mpr ⟨h.distinct, List.pairwise_singleton _ _, ?_⟩
  intro p hp q hq
  obtain rfl := List.mem_singleton.mp hq
  have hlists : s.Lists p := List.mem_append.mp (h.perm_reads.mem_iff.mp hp)
  rw [← Bool.not_eq_true]
  intro hsame
  exact hnew (Or.inl (WalkState.isDone_iff.mpr ⟨p, hlists, hsame⟩))

theorem Consistent.perm_concat (h : w.Consistent reads s) :
    (reads ++ [file]).Perm (file :: (s.loaded ++ s.unparsed)) :=
  (List.perm_append_singleton file reads).trans (h.perm_reads.cons file)

theorem Consistent.notExcluded_takes (h : w.Consistent reads s) (hnew : ¬ w.Passes s file)
    (ht : w.Takes s file s') : ∀ f, s'.Lists f → w.exclude.excludes f = false := by
  intro f hf
  rcases (ht.lists_iff hnew f).mp hf with rfl | hf
  · exact not_excludes_of_not_passes hnew
  · exact h.notExcluded f hf

theorem Consistent.recordFailure (h : w.Consistent reads s) (hnew : ¬ w.Passes s file)
    (hfailed : w.inspect file = .unparsed reason) :
    w.Consistent (reads ++ [file]) (s.recordFailure file reason) := by
  have hloaded := loaded_has_eq_false hnew
  have hperm : (s.unparsed.insert file).Perm (file :: s.unparsed) :=
    PathSet.insert_perm (unparsed_has_eq_false hnew)
  obtain ⟨source, -, -, hlenient⟩ := inspect_eq_unparsed_iff.mp hfailed
  refine ⟨h.keys_exports, ?_, ?_, ?_, ?_, h.notExcluded_takes hnew (.failed hfailed), ?_,
    h.pairwise_concat hnew⟩
  · intro p hp
    -- A loaded path is not the new file: the new file was not done.
    show (s.unparsed.insert file).has p = false
    rw [PathSet.has_insert, h.disjoint p hp, Bool.or_false, ← Bool.not_eq_true]
    intro hsame
    rw [PathSet.has_congr s.loaded hsame] at hloaded
    exact Bool.false_ne_true (hloaded.symm.trans hp)
  · show s.stats ++ [failureLine file reason] = w.failureLines (reads ++ [file])
    rw [failureLines_append, ← h.stats]
    simp [failureLines, failures_of_unparsed hfailed]
  · show ((w.failures (reads ++ [file])).map (·.1)).Perm (s.unparsed.insert file)
    rw [failures_append, failures_of_unparsed hfailed, List.map_append]
    calc List.Perm (_ ++ [file]) (file :: (w.failures reads).map (·.1)) :=
        List.perm_append_singleton _ _
      List.Perm _ (file :: s.unparsed) := h.unparsed.cons file
      List.Perm _ (s.unparsed.insert file) := hperm.symm
  · intro f hf
    rcases List.mem_cons.mp (hperm.mem_iff.mp hf) with rfl | hf
    · exact hlenient
    · exact h.lenient f hf
  · show (reads ++ [file]).Perm (s.loaded ++ s.unparsed.insert file)
    calc List.Perm (reads ++ [file]) (file :: (s.loaded ++ s.unparsed)) := h.perm_concat
      List.Perm _ (s.loaded ++ file :: s.unparsed) := List.perm_middle.symm
      List.Perm _ (s.loaded ++ s.unparsed.insert file) := hperm.symm.append_left s.loaded

theorem Consistent.merge (h : w.Consistent reads s) (hnew : ¬ w.Passes s file)
    (hloaded : w.inspect file = .parsed exports imports) :
    w.Consistent (reads ++ [file]) (s.merge file exports imports) := by
  have hunparsed := unparsed_has_eq_false hnew
  have hperm : (s.loaded.insert file).Perm (file :: s.loaded) :=
    PathSet.insert_perm (loaded_has_eq_false hnew)
  refine ⟨?_, ?_, ?_, ?_, h.lenient, h.notExcluded_takes hnew (.loaded hloaded), ?_,
    h.pairwise_concat hnew⟩
  · show (s.exports.insert file exports).keys = s.loaded.insert file
    rw [PathMap.keys_insert, h.keys_exports]
  · intro p hp
    show s.unparsed.has p = false
    rw [show (s.merge file exports imports).loaded.has p = _ from PathSet.has_insert _ _ _,
      Bool.or_eq_true] at hp
    rcases hp with hsame | hp
    · rw [← PathSet.has_congr s.unparsed hsame, hunparsed]
    · exact h.disjoint p hp
  · -- A file that parses is read without leaving a line.
    show s.stats = w.failureLines (reads ++ [file])
    rw [failureLines_append, ← h.stats]
    simp [failureLines, failures_of_parsed hloaded]
  · rw [failures_append, failures_of_parsed hloaded, List.append_nil]
    exact h.unparsed
  · show (reads ++ [file]).Perm (s.loaded.insert file ++ s.unparsed)
    calc List.Perm (reads ++ [file]) (file :: (s.loaded ++ s.unparsed)) := h.perm_concat
      List.Perm _ (s.loaded.insert file ++ s.unparsed) := hperm.symm.append_right s.unparsed

theorem Consistent.takes (h : w.Consistent reads s) (hnew : ¬ w.Passes s file)
    (ht : w.Takes s file s') : w.Consistent (reads ++ [file]) s' := by
  cases ht with
  | failed hfailed => exact h.recordFailure hnew hfailed
  | loaded hloaded => exact h.merge hnew hloaded

/-! ## All along a walk -/

/-- A turn reads no file and leaves the state as it is, or it reads one new file and takes it. -/
theorem Turn.reads_cases {c c' : Progress} (h : w.Turn c c') :
    (c'.reads = c.reads ∧ c'.state = c.state) ∨
    ∃ file, ¬ w.Passes c.state file ∧ w.Takes c.state file c'.state
      ∧ c'.reads = c.reads ++ [file] := by
  cases h with
  | enter => exact Or.inl ⟨rfl, rfl⟩
  | skip hstep => exact Or.inl ⟨rfl, (passes_of_step hstep).2⟩
  | @go events _ s s' file _ _ _ hstep =>
      obtain ⟨hnew, htakes, rfl, -⟩ := takes_of_step hstep
      refine Or.inr ⟨file, hnew, htakes, ?_⟩
      show (events ++ w.eventsOf file).filterMap Event.read? = _
      rw [List.filterMap_append, filterMap_read?_eventsOf]
      rfl

theorem Consistent.turn {c c' : Progress} (h : w.Consistent c.reads c.state)
    (hturn : w.Turn c c') : w.Consistent c'.reads c'.state := by
  rcases hturn.reads_cases with ⟨hreads, hstate⟩ | ⟨file, hnew, htakes, hreads⟩
  · rw [hreads, hstate]
    exact h
  · rw [hreads]
    exact h.takes hnew htakes

theorem Consistent.turns {c c' : Progress} (h : w.Consistent c.reads c.state)
    (hturns : Relation.ReflTransGen w.Turn c c') : w.Consistent c'.reads c'.state := by
  induction hturns with
  | refl => exact h
  | tail _ hlast ih => exact ih.turn hlast

theorem Reaches.consistent {c : Progress} (h : w.Reaches c) : w.Consistent c.reads c.state :=
  Consistent.turns (c := w.start) w.consistent_empty h

/-- What a successful search leaves behind. -/
theorem Search.consistent {events : List Event} (h : w.Search {} files events (.ok s)) :
    w.Consistent (events.filterMap Event.read?) s :=
  Consistent.turns (c := ⟨[], {}, files ++ [], []⟩) w.consistent_empty
    (turns_of_search_ok h [] [] [])

/-- Taking a file up changes the state exactly when the file is neither passed over nor stops
the walk. -/
theorem state_step_eq_iff :
    (w.step s file).state = s ↔ w.Passes s file ∨ ∃ e, w.Fails file e := by
  rcases w.step_cases s file with ⟨hpass, hstep⟩ | ⟨e, -, hfails, hstep⟩ | ⟨s', hnew, htakes, hstep⟩
  · rw [hstep]
    exact ⟨fun _ => Or.inl hpass, fun _ => rfl⟩
  · rw [hstep]
    exact ⟨fun _ => Or.inr ⟨e, hfails⟩, fun _ => rfl⟩
  · rw [hstep]
    constructor
    · intro heq
      -- A file that was taken is done afterwards, and this one was not done before.
      have hs' : s' = s := heq
      exact absurd (hs' ▸ htakes.passes) hnew
    · rintro (hpass | ⟨e, hfails⟩)
      · exact absurd hpass hnew
      · exact absurd hfails htakes.not_fails

/-- **The state is consistent at every point of every walk**, whether or not the walk fails later.
A file that is passed over or that stops the walk does not change it. Every walk goes through such
points up to its end. -/
theorem state_consistent (w : Walker) :
    (∀ c, w.Reaches c → w.Consistent c.reads c.state) ∧
    (∀ s file, (w.step s file).state = s ↔ w.Passes s file ∨ ∃ e, w.Fails file e) ∧
    ∀ budget run, w.walk budget = some run →
      ∃ c, w.Reaches c ∧ w.EndsWith c run.events run.result :=
  ⟨fun _ hc => hc.consistent, fun _ _ => state_step_eq_iff, fun _ _ hwalk => turns_of_walk hwalk⟩

/-- The walk from `e` in the small project is stopped by a missing file, in a state that is
consistent with the four files that were read before. -/
theorem state_consistent_sample :
    ∃ c events, (sample [⟨"e.js"⟩] true).Reaches c ∧
      (sample [⟨"e.js"⟩] true).StopsAt c events (.missingFile ⟨"/src/d.js"⟩) ∧
      (sample [⟨"e.js"⟩] true).Consistent c.reads c.state := by
  obtain ⟨hconsistent, -, hends⟩ := state_consistent (sample [⟨"e.js"⟩] true)
  obtain ⟨run, hwalk, hresult⟩ : ∃ run, (sample [⟨"e.js"⟩] true).walk 4 = some run ∧
      run.result = .error (.missingFile ⟨"/src/d.js"⟩) := ⟨_, rfl, rfl⟩
  obtain ⟨c, hc, hend⟩ := hends 4 run hwalk
  rw [hresult] at hend
  exact ⟨c, run.events, hc, hend, hconsistent c hc⟩

end Walker

end ModuleGraph
