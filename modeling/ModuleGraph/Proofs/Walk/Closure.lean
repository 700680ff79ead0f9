import ModuleGraph.Proofs.Walk.Search

set_option autoImplicit false

/-! # What a successful search leaves behind

Every file that is done stays done, every file that was asked for is done or excluded
(`Search.covers`), and so is everything that a newly done file leads to (`Search.closed`).
Invariants of the state are carried through a search by `Search.preserves`, from what one file
does to the state.
-/

namespace ModuleGraph

/-! ## What one file adds -/

namespace WalkState

variable {s : WalkState} {file p : Path}

theorem isDone_merge (exports : List String) (imports : List (Path × List String)) :
    (s.merge file exports imports).isDone p = (file.same p || s.isDone p) := by
  simp only [isDone, merge, PathSet.has_insert, Bool.or_assoc]

theorem isDone_recordFailure (reason : String) :
    (s.recordFailure file reason).isDone p = (file.same p || s.isDone p) := by
  simp only [isDone, recordFailure, PathSet.has_insert, Bool.or_left_comm]

/-- The file is listed as loaded or as unparsed, in this spelling. -/
def Lists (s : WalkState) (file : Path) : Prop := file ∈ s.loaded ∨ file ∈ s.unparsed

theorem not_lists_empty : ¬ ({} : WalkState).Lists file := by simp [Lists]

/-- A file that is done is listed in some spelling. -/
theorem isDone_iff : s.isDone p = true ↔ ∃ f, s.Lists f ∧ f.same p = true := by
  rw [isDone, Bool.or_eq_true, PathSet.has_iff, PathSet.has_iff]
  constructor
  · rintro (⟨f, hf, h⟩ | ⟨f, hf, h⟩)
    · exact ⟨f, Or.inl hf, h⟩
    · exact ⟨f, Or.inr hf, h⟩
  · rintro ⟨f, hf | hf, h⟩
    · exact Or.inl ⟨f, hf, h⟩
    · exact Or.inr ⟨f, hf, h⟩

theorem Lists.isDone (h : s.Lists file) : s.isDone file = true :=
  isDone_iff.mpr ⟨file, h, Path.same_refl file⟩

end WalkState

namespace Walker

variable {w : Walker} {s s' : WalkState} {file p : Path} {files : List Path}
  {events : List Event}

theorem Takes.isDone (h : w.Takes s file s') (p : Path) :
    s'.isDone p = (file.same p || s.isDone p) := by
  cases h with
  | failed h => exact WalkState.isDone_recordFailure _
  | loaded h => exact WalkState.isDone_merge _ _

theorem not_isDone_of_not_passes (h : ¬ w.Passes s file) : s.isDone file = false := by
  simp_all [Passes]

theorem not_excludes_of_not_passes (h : ¬ w.Passes s file) : w.exclude.excludes file = false := by
  simp_all [Passes]

/-- A new file that is loaded is added to the loaded files, as it is spelled. -/
theorem mem_loaded_merge (hnew : ¬ w.Passes s file) (exports : List String)
    (imports : List (Path × List String)) (p : Path) :
    p ∈ (s.merge file exports imports).loaded ↔ p = file ∨ p ∈ s.loaded := by
  have hdone := not_isDone_of_not_passes hnew
  rw [WalkState.isDone, Bool.or_eq_false_iff] at hdone
  exact PathSet.mem_insert_of_not_has hdone.1 p

theorem mem_unparsed_recordFailure (hnew : ¬ w.Passes s file) (reason : String) (p : Path) :
    p ∈ (s.recordFailure file reason).unparsed ↔ p = file ∨ p ∈ s.unparsed := by
  have hdone := not_isDone_of_not_passes hnew
  rw [WalkState.isDone, Bool.or_eq_false_iff] at hdone
  exact PathSet.mem_insert_of_not_has hdone.2 p

theorem Takes.lists_iff (h : w.Takes s file s') (hnew : ¬ w.Passes s file) (p : Path) :
    s'.Lists p ↔ p = file ∨ s.Lists p := by
  unfold WalkState.Lists
  cases h with
  | failed _ => rw [mem_unparsed_recordFailure hnew, or_left_comm]; rfl
  | loaded _ => rw [mem_loaded_merge hnew, or_assoc]; rfl

/-! ## Invariants -/

/-- What every new file keeps is kept by a search, as long as the waiting files are of some
kind and new files lead to files of that kind only. -/
theorem Search.preserves {P : WalkState → Prop} {Q : Path → Prop}
    (htakes : ∀ s file s', P s → Q file → ¬ w.Passes s file → w.Takes s file s' →
      P s' ∧ ∀ g ∈ w.follow file, Q g)
    (h : w.Search s files events (.ok s')) (hs : P s) (hfiles : ∀ f ∈ files, Q f) : P s' := by
  induction h using Search.ok_induction with
  | nil s => exact hs
  | skip _ _ ih => exact ih hs fun f hf => hfiles f (List.mem_cons_of_mem _ hf)
  | go hnew ht _ _ ihsub ihrest =>
      obtain ⟨hs₁, hfollow⟩ := htakes _ _ _ hs (hfiles _ List.mem_cons_self) hnew ht
      exact ihrest (ihsub hs₁ hfollow) fun f hf => hfiles f (List.mem_cons_of_mem _ hf)

/-- The same for what is kept by files of every kind. -/
theorem Search.preserves_of_takes {P : WalkState → Prop}
    (htakes : ∀ s file s', P s → ¬ w.Passes s file → w.Takes s file s' → P s')
    (h : w.Search s files events (.ok s')) (hs : P s) : P s' :=
  h.preserves (Q := fun _ => True)
    (fun _ _ _ hs _ hnew ht => ⟨htakes _ _ _ hs hnew ht, fun _ _ => trivial⟩) hs
    (fun _ _ => trivial)

/-- Every file that is listed in a state turned out to be what it is listed as. -/
structure Accurate (w : Walker) (s : WalkState) : Prop where
  loaded : ∀ f ∈ s.loaded, w.exclude.excludes f = false
    ∧ ∃ exports imports, w.inspect f = .parsed exports imports
  unparsed : ∀ f ∈ s.unparsed, w.exclude.excludes f = false
    ∧ ∃ reason, w.inspect f = .unparsed reason

theorem accurate_empty (w : Walker) : w.Accurate {} :=
  ⟨by simp, by simp⟩

theorem Accurate.takes (hs : w.Accurate s) (hnew : ¬ w.Passes s file) (h : w.Takes s file s') :
    w.Accurate s' := by
  have hex := not_excludes_of_not_passes hnew
  cases h with
  | failed h =>
      refine ⟨hs.loaded, fun f hf => ?_⟩
      rcases (mem_unparsed_recordFailure hnew _ f).mp hf with rfl | hf
      · exact ⟨hex, _, h⟩
      · exact hs.unparsed f hf
  | loaded h =>
      refine ⟨fun f hf => ?_, hs.unparsed⟩
      rcases (mem_loaded_merge hnew _ _ f).mp hf with rfl | hf
      · exact ⟨hex, _, _, h⟩
      · exact hs.loaded f hf

theorem Search.accurate (h : w.Search s files events (.ok s')) (hs : w.Accurate s) : w.Accurate s' :=
  h.preserves_of_takes (fun _ _ _ hs hnew ht => hs.takes hnew ht) hs

/-! ## Closure -/

theorem Search.isDone_mono (h : w.Search s files events (.ok s')) (hp : s.isDone p = true) :
    s'.isDone p = true := by
  refine h.preserves_of_takes (P := fun s => s.isDone p = true) ?_ hp
  intro s file s' hs _ ht
  rw [ht.isDone, hs, Bool.or_true]

theorem Search.isDone_eq_false (h : w.Search s files events (.ok s'))
    (hp : s'.isDone p = false) : s.isDone p = false := by
  rw [← Bool.not_eq_true] at hp ⊢
  exact mt h.isDone_mono hp

theorem Search.passes_mono (h : w.Search s files events (.ok s')) (hp : w.Passes s p) :
    w.Passes s' p := hp.imp_left h.isDone_mono

theorem Takes.passes (h : w.Takes s file s') : w.Passes s' file :=
  Or.inl (by rw [h.isDone, Path.same_refl, Bool.true_or])

/-- All files that were asked for are done or excluded. -/
theorem Search.covers (h : w.Search s files events (.ok s')) : ∀ f ∈ files, w.Passes s' f := by
  induction h using Search.ok_induction with
  | nil s => simp
  | skip hpass hrest ih =>
      intro f hf
      rcases List.mem_cons.mp hf with rfl | hf
      · exact hrest.passes_mono hpass
      · exact ih f hf
  | go hnew htakes hsub hrest _ ih =>
      intro f hf
      rcases List.mem_cons.mp hf with rfl | hf
      · exact hrest.passes_mono (hsub.passes_mono htakes.passes)
      · exact ih f hf

/-- A file that did not end the walk, and all of whose imports are done or excluded. -/
structure Settled (w : Walker) (s : WalkState) (file : Path) : Prop where
  notExcluded : w.exclude.excludes file = false
  notFails : ∀ e, ¬ w.Fails file e
  follow : ∀ g ∈ w.follow file, w.Passes s g

theorem Settled.mono (hf : w.Settled s file) (h : w.Search s files events (.ok s')) :
    w.Settled s' file :=
  ⟨hf.notExcluded, hf.notFails, fun g hg => h.passes_mono (hf.follow g hg)⟩

/-- **Whatever a search adds is settled.** The files that wait are of some kind `Q` that only
leads to its own kind, and so are those that are added. -/
theorem Search.closed {Q : Path → Prop} (hfollow : ∀ file, Q file → ∀ g ∈ w.follow file, Q g)
    (h : w.Search s files events (.ok s')) (hfiles : ∀ f ∈ files, Q f)
    (hp : s'.isDone p = true) :
    s.isDone p = true ∨ ∃ f, Q f ∧ f.same p = true ∧ w.Settled s' f := by
  induction h using Search.ok_induction with
  | nil s => exact Or.inl hp
  | skip _ _ ih => exact ih (fun f hf => hfiles f (List.mem_cons_of_mem _ hf)) hp
  | @go s s₁ s₂ s' file rest _ _ hnew htakes hsub hrest ihsub ihrest =>
      have hfile := hfiles file List.mem_cons_self
      have hrestQ : ∀ f ∈ rest, Q f := fun f hf => hfiles f (List.mem_cons_of_mem _ hf)
      rcases ihrest hrestQ hp with hp₂ | hnewer
      · rcases ihsub (hfollow file hfile) hp₂ with hp₁ | ⟨f, hQ, hsame, hf⟩
        · rw [htakes.isDone, Bool.or_eq_true] at hp₁
          rcases hp₁ with hsame | hp
          · have hsettled : w.Settled s₂ file :=
              ⟨not_excludes_of_not_passes hnew, fun e => htakes.not_fails, hsub.covers⟩
            exact Or.inr ⟨file, hfile, hsame, hsettled.mono hrest⟩
          · exact Or.inl hp
        · exact Or.inr ⟨f, hQ, hsame, hf.mono hrest⟩
      · exact Or.inr hnewer

/-! ## Clean walks

When the host resolves cleanly, all files that a walk meets are clean, so that two of them are
the same only if they are equal. -/

theorem isClean_follow (hw : w.host.ResolvesCleanly) {g : Path} (hg : g ∈ w.follow file) :
    g.IsClean := (imports_of_mem_follow hg).isClean hw

theorem isClean_starts {f : Path} (hf : f ∈ w.starts) : f.IsClean := by
  obtain ⟨entry, -, rfl⟩ := List.mem_map.mp hf
  exact Path.isClean_absolutize entry w.cwd

/-- With recursion, all local imports of a loaded file come to wait. -/
theorem mem_follow_of_imports (hw : w.host.ResolvesCleanly) (hrec : w.options.recurse = true)
    {exports : List String} {imports : List (Path × List String)}
    (h : w.inspect file = .parsed exports imports) (himp : w.Imports file p) :
    p ∈ w.follow file := by
  obtain ⟨q, hq, hsame⟩ := exists_mem_locals_of_imports h himp
  have hclean : q.IsClean := (imports_of_mem_locals h hq).isClean hw
  obtain rfl := hclean.eq_of_same (himp.isClean hw) hsame
  simpa [follow, localsOf, hrec, h] using hq

/-- Only clean files are done. -/
def DoneClean (s : WalkState) : Prop := ∀ f, s.Lists f → f.IsClean

theorem doneClean_empty : DoneClean {} := fun _ hf => absurd hf WalkState.not_lists_empty

theorem DoneClean.takes (hs : DoneClean s) (hclean : file.IsClean) (hnew : ¬ w.Passes s file)
    (h : w.Takes s file s') : DoneClean s' := by
  intro f hf
  rcases (h.lists_iff hnew f).mp hf with rfl | hf
  · exact hclean
  · exact hs f hf

theorem Search.doneClean (hw : w.host.ResolvesCleanly) (h : w.Search s files events (.ok s'))
    (hs : DoneClean s) (hfiles : ∀ f ∈ files, f.IsClean) : DoneClean s' :=
  h.preserves
    (fun _ _ _ hs hclean hnew ht =>
      ⟨DoneClean.takes hs hclean hnew ht, fun _ hg => isClean_follow hw hg⟩)
    hs hfiles

/-- In a clean state a clean file that is done is listed as it is. -/
theorem DoneClean.lists_of_isDone (hs : DoneClean s) (hp : p.IsClean) (h : s.isDone p = true) :
    s.Lists p := by
  obtain ⟨f, hf, hsame⟩ := WalkState.isDone_iff.mp h
  rwa [← (hs f hf).eq_of_same hp hsame]

/-- Among clean files, every file that a search adds is settled. -/
theorem Search.settled (hw : w.host.ResolvesCleanly) (h : w.Search s files events (.ok s'))
    (hfiles : ∀ f ∈ files, f.IsClean) (hp : p.IsClean) (hold : s.isDone p = false)
    (hdone : s'.isDone p = true) : w.Settled s' p := by
  rcases h.closed (fun _ _ _ hg => isClean_follow hw hg) hfiles hdone with
    hbefore | ⟨f, hf, hsame, hsettled⟩
  · rw [hold] at hbefore
    cases hbefore
  · obtain rfl := hf.eq_of_same hp hsame
    exact hsettled

end Walker

end ModuleGraph
