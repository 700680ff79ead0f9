import Mathlib.Data.List.Perm.Subperm
import ModuleGraph.Proofs.Walk.Consistency

set_option autoImplicit false

/-! # Walks end

Every file that is taken into the state was readable and becomes done. When only finitely many
files are readable, each turn of a walk lowers a rank (`Turn.rank_lt`): first how many of them
are not done, then how many entries are left, then how many files wait. The number of waiting
files alone does not do, since a file may bring any number of others to wait, and neither does the
number of done files, since files that are passed over leave it as it is. So no walk takes turns
forever, whatever its files import (`Confined.acc`), there is a search from any files in any state
(`Confined.exists_search`), and a budget of as many reads as there are readable files suffices
(`walk_terminates`).

What is needed of the readable files is needed only of those that a walk can come to. They are
described by an invariant of the turns (`acc_of_invariant`); mostly these are the files of some
`kind` that leads to its own kind only.
-/

namespace ModuleGraph

theorem WalkState.isDone_congr (s : WalkState) {p q : Path} (h : p.same q = true) :
    s.isDone p = s.isDone q := by
  rw [isDone, isDone, PathSet.has_congr s.loaded h, PathSet.has_congr s.unparsed h]

namespace Walker

variable {w : Walker} {s s' : WalkState} {file : Path} {files bound : List Path}
  {kind : Path → Prop} {c c' : Progress}

theorem Takes.readable (h : w.Takes s file s') : ∃ source, w.host.read file = .ok source := by
  cases h with
  | failed h =>
      obtain ⟨source, hread, -⟩ := inspect_eq_unparsed_iff.mp h
      exact ⟨source, hread⟩
  | loaded h =>
      obtain ⟨facts, source, hread, -⟩ := hasFacts_of_parsed h
      exact ⟨source, hread⟩

/-! ## The rank of a progress -/

/-- `w.Confined kind bound`: files of this kind lead to files of this kind only, and `bound` lists
those of them that can be read. -/
structure Confined (w : Walker) (kind : Path → Prop) (bound : List Path) : Prop where
  follow : ∀ p, kind p → w.exclude.excludes p = false → ∀ g ∈ w.follow p, kind g
  listed : ∀ p source, kind p → w.exclude.excludes p = false → w.host.read p = .ok source →
    ∃ q ∈ bound, q.same p = true

/-- How many of the given files are not done. -/
def remaining (bound : List Path) (s : WalkState) : Nat :=
  (bound.filter fun p => !s.isDone p).length

/-- What each turn lowers. -/
def rank (bound : List Path) (c : Progress) : Nat × Nat × Nat :=
  (remaining bound c.state, c.entries.length, c.waiting.length)

/-- The order of ranks: the first difference decides. -/
def RankLt : Nat × Nat × Nat → Nat × Nat × Nat → Prop :=
  Prod.Lex (· < ·) (Prod.Lex (· < ·) (· < ·))

theorem wellFounded_rankLt : WellFounded RankLt :=
  (Prod.lex Nat.lt_wfRel (Prod.lex Nat.lt_wfRel Nat.lt_wfRel)).wf

/-- All files that wait, or will wait as entries, are of some kind. -/
structure Within (w : Walker) (kind : Path → Prop) (c : Progress) : Prop where
  waiting : ∀ f ∈ c.waiting, kind f
  entries : ∀ entry ∈ c.entries, kind (entry.absolutize w.cwd)

/-- The file itself is listed, is not done, and does not remain. -/
theorem Takes.remaining_lt (h : w.Takes s file s') (hnew : ¬ w.Passes s file)
    (hlisted : ∃ q ∈ bound, q.same file = true) : remaining bound s' < remaining bound s := by
  have hsplit : bound.filter (fun p => !s'.isDone p)
      = (bound.filter fun p => !s.isDone p).filter fun p => !file.same p := by
    rw [List.filter_filter]
    refine List.filter_congr fun p _ => ?_
    rw [h.isDone, Bool.not_or]
  unfold remaining
  rw [hsplit, List.length_filter_lt_length_iff_exists]
  obtain ⟨q, hq, hsame⟩ := hlisted
  have hdone : s.isDone q = false := by
    rw [s.isDone_congr hsame]
    exact not_isDone_of_not_passes hnew
  refine ⟨q, List.mem_filter.mpr ⟨hq, by rw [hdone]; rfl⟩, ?_⟩
  rw [Path.same_comm, hsame]
  simp

/-- `w.ListsNext bound c`: if the next file is taken at this progress, it is listed. -/
def ListsNext (w : Walker) (bound : List Path) (c : Progress) : Prop :=
  ∀ file waiting source, c.waiting = file :: waiting → ¬ w.Passes c.state file →
    w.host.read file = .ok source → ∃ q ∈ bound, q.same file = true

/-- **Each turn lowers the rank.** -/
theorem Turn.rank_lt (h : w.Turn c c') (hlists : w.ListsNext bound c) :
    RankLt (rank bound c') (rank bound c) := by
  cases h with
  | enter => exact .right _ (.left _ _ (Nat.lt_succ_self _))
  | skip hstep =>
      obtain ⟨-, rfl⟩ := passes_of_step hstep
      exact .right _ (.right _ (Nat.lt_succ_self _))
  | go hstep =>
      obtain ⟨hnew, htakes, -, -⟩ := takes_of_step hstep
      obtain ⟨source, hread⟩ := htakes.readable
      exact .left _ _ (htakes.remaining_lt hnew (hlists _ _ source rfl hnew hread))

/-- No walk takes turns forever along which each file that is taken is listed. -/
theorem acc_of_invariant {I : Progress → Prop} (hturn : ∀ c c', I c → w.Turn c c' → I c')
    (hlists : ∀ c, I c → w.ListsNext bound c) (hc : I c) : Acc (fun c' c => w.Turn c c') c := by
  have hrank : WellFounded (InvImage RankLt (rank bound)) := InvImage.wf _ wellFounded_rankLt
  -- The invariant goes through the induction, since only along it every turn lowers the rank.
  induction c using hrank.induction with
  | _ c ih =>
      constructor
      intro c' h
      exact ih c' (h.rank_lt (hlists c hc)) (hturn c c' hc h)

namespace Confined

theorem lists (hw : w.Confined kind bound) (hc : w.Within kind c) : w.ListsNext bound c := by
  intro file waiting source hwaiting hnew hread
  have hkind : kind file := hc.waiting file (by simp [hwaiting])
  exact hw.listed file source hkind (not_excludes_of_not_passes hnew) hread

theorem remaining_lt (hw : w.Confined kind bound) (hfile : kind file) (hnew : ¬ w.Passes s file)
    (h : w.Takes s file s') : remaining bound s' < remaining bound s := by
  obtain ⟨source, hread⟩ := h.readable
  exact h.remaining_lt hnew (hw.listed file source hfile (not_excludes_of_not_passes hnew) hread)

theorem within (hw : w.Confined kind bound) (hc : w.Within kind c) (h : w.Turn c c') :
    w.Within kind c' := by
  cases h with
  | enter =>
      refine ⟨?_, fun entry hentry => hc.entries entry (List.mem_cons_of_mem _ hentry)⟩
      intro f hf
      rw [List.mem_singleton.mp hf]
      exact hc.entries _ List.mem_cons_self
  | skip _ => exact ⟨fun f hf => hc.waiting f (List.mem_cons_of_mem _ hf), hc.entries⟩
  | @go _ _ _ _ file _ _ _ hstep =>
      obtain ⟨hnew, -, -, rfl⟩ := takes_of_step hstep
      refine ⟨fun f hf => ?_, hc.entries⟩
      rcases List.mem_append.mp hf with hf | hf
      · exact hw.follow file (hc.waiting file List.mem_cons_self) (not_excludes_of_not_passes hnew)
          f hf
      · exact hc.waiting f (List.mem_cons_of_mem _ hf)

/-- No walk among files of the kind takes turns forever. -/
theorem acc (hw : w.Confined kind bound) (hc : w.Within kind c) :
    Acc (fun c' c => w.Turn c c') c :=
  acc_of_invariant (fun _ _ hc => hw.within hc) (fun _ hc => hw.lists hc) hc

end Confined

/-! ## Searches exist -/

/-- Where a walk does not take turns forever, there is a search of all that waits and of the
entries that are left. -/
theorem exists_search_of_acc (h : Acc (fun c' c => w.Turn c c') c) :
    ∃ events result,
      w.Search c.state (c.waiting ++ c.entries.map (·.absolutize w.cwd)) events result := by
  induction h with
  | intro c _ ih =>
      obtain ⟨before, s, waiting, entries⟩ := c
      cases waiting with
      | nil =>
          cases entries with
          | nil => exact ⟨[], _, .nil s⟩
          | cons entry entries => exact ih ⟨before, s, [entry.absolutize w.cwd], entries⟩ .enter
      | cons file rest =>
          rcases w.step_cases s file with
            ⟨hpass, hstep⟩ | ⟨e, hnew, hfails, -⟩ | ⟨s', hnew, htakes, -⟩
          · obtain ⟨events, result, hrest⟩ := ih _ (.skip hstep)
            exact ⟨events, result, .skip hpass hrest⟩
          · exact ⟨_, _, .stop hnew hfails⟩
          · -- The turn puts the imports in front of the rest, and their search splits there.
            obtain ⟨events, result, hsearch⟩ := ih _ (.of_takes hnew htakes)
            simp only [List.append_assoc] at hsearch
            rcases hsearch.split with ⟨e, -, hsub⟩ | ⟨_, _, s₂, -, hsub, hrest⟩
            · exact ⟨_, _, .fail hnew htakes hsub⟩
            · exact ⟨_, _, .go hnew htakes hsub hrest⟩

theorem Confined.exists_search (hw : w.Confined kind bound) (s : WalkState)
    (hfiles : ∀ f ∈ files, kind f) : ∃ events result, w.Search s files events result := by
  have hc : w.Within kind ⟨[], s, files, []⟩ := ⟨hfiles, by simp⟩
  simpa using exists_search_of_acc (hw.acc hc)

theorem confined_of_readable
    (h : ∀ p source, w.host.read p = .ok source → ∃ q ∈ bound, q.same p = true) :
    w.Confined (fun _ => True) bound :=
  ⟨fun _ _ _ _ _ => trivial, fun p source _ _ => h p source⟩

theorem within_true (c : Progress) : w.Within (fun _ => True) c :=
  ⟨fun _ _ => trivial, fun _ _ => trivial⟩

/-! ## How many reads suffice -/

theorem remaining_le (bound : List Path) (s : WalkState) : remaining bound s ≤ bound.length :=
  List.length_filter_le _ _

theorem Confined.drain (hw : w.Confined kind bound) (hrec : w.options.recurse = true)
    (hc : w.Within kind c) {budget : Nat} (hbudget : remaining bound c.state ≤ budget) :
    ∃ run, w.drain budget c.events c.state c.waiting = some run := by
  have hacc := hw.acc hc
  induction hacc generalizing budget with
  | intro c _ ih =>
      obtain ⟨events, s, waiting, entries⟩ := c
      cases waiting with
      | nil => exact ⟨_, by cases budget <;> rfl⟩
      | cons file rest =>
          rcases w.step_cases s file with
            ⟨hpass, hstep⟩ | ⟨e, hnew, hfails, -⟩ | ⟨s', hnew, htakes, -⟩
          · rw [drain_of_passes hpass]
            have hturn : w.Turn ⟨events, s, file :: rest, entries⟩ ⟨events, s, rest, entries⟩ :=
              .skip hstep
            exact ih _ hturn (hw.within hc hturn) hbudget
          · exact ⟨_, drain_of_fails hnew hfails budget⟩
          · -- One read less is allowed, and one readable file less remains.
            have hlt := hw.remaining_lt (hc.waiting file List.mem_cons_self) hnew htakes
            obtain ⟨b, rfl⟩ : ∃ b, budget = b + 1 := ⟨budget - 1, by simp only at hbudget; omega⟩
            have hturn : w.Turn ⟨events, s, file :: rest, entries⟩ _ := .of_takes hnew htakes
            rw [drain_of_takes hnew htakes, ← follow_of_recurse hrec]
            exact ih _ hturn (hw.within hc hturn) (by simp only at hbudget ⊢; omega)

theorem exists_drainWith {next : List Event → WalkState → List Path → Option Run}
    (hnext : ∀ events s files, ∃ run, next events s files = some run) (events : List Event)
    (s : WalkState) (files : List Path) : ∃ run, w.drainWith next events s files = some run := by
  induction files generalizing s with
  | nil => exact ⟨_, rfl⟩
  | cons file rest ih =>
      rw [drainWith]
      cases w.step s file with
      | skip s' => exact ih s'
      | stop more s' e => exact ⟨_, rfl⟩
      | go more s' files => exact hnext _ _ _

theorem Confined.walkEntry (hw : w.Confined (fun _ => True) bound) {budget : Nat}
    (hbudget : bound.length ≤ budget) (events : List Event) (s : WalkState) (entry : Path) :
    ∃ run, w.walkEntry budget events s entry = some run := by
  unfold Walker.walkEntry
  by_cases hrec : w.options.recurse = true
  · rw [if_pos hrec]
    have hc := w.within_true ⟨events, s, [entry.absolutize w.cwd], []⟩
    exact hw.drain hrec hc (Nat.le_trans (remaining_le bound s) hbudget)
  · rw [if_neg hrec]
    exact exists_drainWith (fun _ _ _ => ⟨_, rfl⟩) events s _

theorem Confined.walkEntries (hw : w.Confined (fun _ => True) bound) {budget : Nat}
    (hbudget : bound.length ≤ budget) (events : List Event) (s : WalkState)
    (entries : List Path) : ∃ run, w.walkEntries budget events s entries = some run := by
  induction entries generalizing events s with
  | nil => exact ⟨_, rfl⟩
  | cons entry more ih =>
      rw [Walker.walkEntries]
      obtain ⟨⟨events', result⟩, hentry⟩ := hw.walkEntry hbudget events s entry
      rw [hentry]
      cases result with
      | error e => exact ⟨_, rfl⟩
      | ok s' => exact ih events' s'

/-- Whatever budget suffices, the walk comes to the same run. -/
theorem walk_unique {budget budget' : Nat} {run run' : Run} (h : w.walk budget = some run)
    (h' : w.walk budget' = some run') : run = run' := by
  obtain ⟨events, result⟩ := run
  obtain ⟨events', result'⟩ := run'
  obtain ⟨rfl, rfl⟩ := (search_of_walk h).unique (search_of_walk h')
  rfl

/-! ## How many files are read -/

theorem Reaches.readable (h : w.Reaches c) :
    ∀ f ∈ c.reads, ∃ source, w.host.read f = .ok source := by
  refine h.induction (P := fun c => ∀ f ∈ c.reads, ∃ source, w.host.read f = .ok source) ?_ ?_
  · intro f hf
    cases hf
  · intro c c' hc hturn
    rcases hturn.reads_cases with ⟨hreads, -⟩ | ⟨file, -, htakes, hreads⟩
    · rw [hreads]
      exact hc
    · intro f hf
      rw [hreads] at hf
      rcases List.mem_append.mp hf with hf | hf
      · exact hc f hf
      · rw [List.mem_singleton.mp hf]
        exact htakes.readable

/-- Distinct files that are all listed are no more than the list has. -/
theorem length_le_of_listed {ps : List Path} (hdistinct : ps.Pairwise fun p q => p.same q = false)
    (hlisted : ∀ p ∈ ps, ∃ q ∈ bound, q.same p = true) : ps.length ≤ bound.length := by
  have hnodup : (ps.map Path.components).Nodup := by
    refine List.pairwise_map.mpr (hdistinct.imp fun {p q} hne heq => ?_)
    rw [(Path.same_iff p q).mpr heq] at hne
    cases hne
  have hsub : ps.map Path.components ⊆ bound.map Path.components := by
    intro cs hcs
    obtain ⟨p, hp, rfl⟩ := List.mem_map.mp hcs
    obtain ⟨q, hq, hsame⟩ := hlisted p hp
    exact List.mem_map.mpr ⟨q, hq, (Path.same_iff q p).mp hsame⟩
  simpa using (List.subperm_of_subset hnodup hsub).length_le

theorem length_reads_le
    (hread : ∀ p source, w.host.read p = .ok source → ∃ q ∈ bound, q.same p = true)
    {budget : Nat} {run : Run} (h : w.walk budget = some run) :
    run.reads.length ≤ bound.length + 1 := by
  obtain ⟨c, hc, hend⟩ := turns_of_walk h
  have hle : c.reads.length ≤ bound.length := by
    refine length_le_of_listed hc.consistent.distinct fun p hp => ?_
    obtain ⟨source, hsource⟩ := hc.readable p hp
    exact hread p source hsource
  cases hresult : run.result with
  | ok s =>
      rw [hresult] at hend
      obtain rfl : c = ⟨run.events, s, [], []⟩ := hend
      exact Nat.le_succ_of_le hle
  | error e =>
      rw [hresult] at hend
      -- The file that stops the walk was read as well, and need not be readable.
      obtain ⟨file, waiting, more, s, -, hstop, hevents⟩ := hend
      obtain ⟨-, -, rfl, -⟩ := fails_of_step hstop
      have hreads : run.reads = c.reads ++ [file] := by
        rw [Run.reads, hevents, List.filterMap_append, filterMap_read?_eventsOf]
        rfl
      rw [hreads, List.length_append, List.length_singleton]
      omega

/-- **A walk ends when finitely many files are readable**, whatever they import: there is no
endless sequence of turns, from wherever it starts; with a budget of at least as many reads as
there are readable files the walk comes to a run, always the same; and it reads at most one file
more, which is one that stops it. -/
theorem walk_terminates {readable : List Path}
    (hread : ∀ p source, w.host.read p = .ok source → ∃ q ∈ readable, q.same p = true) :
    WellFounded (fun c' c => w.Turn c c') ∧
    ∃ run, (∀ budget ≥ readable.length, w.walk budget = some run)
      ∧ run.reads.length ≤ readable.length + 1 := by
  have hw := confined_of_readable hread
  refine ⟨⟨fun c => hw.acc (w.within_true c)⟩, ?_⟩
  have hwalk : ∀ budget ≥ readable.length, ∃ run, w.walk budget = some run :=
    fun budget hbudget => hw.walkEntries hbudget [] {} w.options.files
  obtain ⟨run, hrun⟩ := hwalk readable.length (Nat.le_refl _)
  refine ⟨run, fun budget hbudget => ?_, length_reads_le hread hrun⟩
  obtain ⟨run', hrun'⟩ := hwalk budget hbudget
  rw [hrun', walk_unique hrun hrun']

/-- The walk of the small project ends although its files import each other. -/
theorem walk_terminates_sample :
    (∀ p source, Host.sample.read p = .ok source →
      ∃ q ∈ [(⟨"/src/a.js"⟩ : Path), ⟨"/src/b.js"⟩, ⟨"/src/c.js"⟩, ⟨"/src/e.js"⟩],
        q.same p = true) ∧
    (sample [⟨"e.js"⟩, ⟨"a.js"⟩] true).Imports ⟨"/src/a.js"⟩ ⟨"/src/b.js"⟩ ∧
    (sample [⟨"e.js"⟩, ⟨"a.js"⟩] true).Imports ⟨"/src/b.js"⟩ ⟨"/src/a.js"⟩ ∧
    ∃ run, ∀ budget ≥ 4, (sample [⟨"e.js"⟩, ⟨"a.js"⟩] true).walk budget = some run := by
  have hread : ∀ p source, Host.sample.read p = .ok source →
      ∃ q ∈ [(⟨"/src/a.js"⟩ : Path), ⟨"/src/b.js"⟩, ⟨"/src/c.js"⟩, ⟨"/src/e.js"⟩],
        q.same p = true := by
    intro p source h
    have hmem : p.text ∈ ["/src/a.js", "/src/b.js", "/src/c.js", "/src/e.js"] := by
      simp only [Host.sample] at h
      split at h
      · assumption
      · cases h
    refine ⟨p, ?_, Path.same_refl p⟩
    obtain ⟨text⟩ := p
    simpa using hmem
  obtain ⟨-, run, hrun, -⟩ := walk_terminates (w := sample [⟨"e.js"⟩, ⟨"a.js"⟩] true) hread
  refine ⟨hread, ?_, ?_, run, hrun⟩
  · exact ⟨_, "./b", ["x"], ⟨_, rfl, rfl⟩, by decide, rfl, by decide⟩
  · exact ⟨_, "./a", ["default"], ⟨_, rfl, rfl⟩, by decide, rfl, by decide⟩

end Walker

end ModuleGraph
