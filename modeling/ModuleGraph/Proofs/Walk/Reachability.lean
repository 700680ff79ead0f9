import Mathlib.Order.Bounds.Defs
import ModuleGraph.Proofs.Walk.Closure

set_option autoImplicit false

/-! # A walk loads what it can reach

The files that a successful walk loads form the least solution of one equation: a file is
loaded exactly when it is not excluded, it parses, and it is an entry or a local import of a
loaded file (`Walker.Admits`). That the loaded files are contained in every solution is an
invariant of the search; that they are closed under the equation is read off the state that the
search leaves behind. Without recursion the loaded files are the entries that are not excluded
and that parse.
-/

namespace ModuleGraph

namespace Walker

variable {w : Walker} {s s' : WalkState} {f g p : Path} {files : List Path}
  {events : List Event}

/-- Given the set of loaded files, whether a file has to be loaded. -/
def Admits (w : Walker) (loaded : Set Path) (p : Path) : Prop :=
  w.exclude.excludes p = false ∧ (∃ facts, w.HasFacts p facts)
    ∧ (p ∈ w.starts ∨ ∃ f ∈ loaded, w.Imports f p)

theorem Admits.mono {S T : Set Path} (hST : S ⊆ T) (h : w.Admits S p) : w.Admits T p := by
  obtain ⟨hex, hfacts, hp⟩ := h
  refine ⟨hex, hfacts, hp.imp_right ?_⟩
  rintro ⟨f, hf, himp⟩
  exact ⟨f, hST hf, himp⟩

/-! ## Nothing else is loaded -/

/-- The loaded files stay within every set that contains the entries, and what its files lead
to, as far as they can be loaded. -/
theorem Search.loaded_subset {S : Set Path}
    (hS : ∀ p, w.exclude.excludes p = false → (∃ facts, w.HasFacts p facts) →
      (p ∈ w.starts ∨ ∃ f ∈ S, p ∈ w.follow f) → p ∈ S)
    (h : w.Search s files events (.ok s')) (hs : ∀ p ∈ s.loaded, p ∈ S)
    (hfiles : ∀ p ∈ files, p ∈ w.starts ∨ ∃ f ∈ S, p ∈ w.follow f) :
    ∀ p ∈ s'.loaded, p ∈ S := by
  refine h.preserves (P := fun s => ∀ p ∈ s.loaded, p ∈ S) ?_ hs hfiles
  intro s file s' hs hfile hnew htakes
  cases htakes with
  | failed hfailed =>
      have hnone : w.follow file = [] := by simp [follow, localsOf, hfailed]
      exact ⟨hs, by simp [hnone]⟩
  | loaded hloaded =>
      have hmem : file ∈ S :=
        hS file (not_excludes_of_not_passes hnew) (hasFacts_of_parsed hloaded) hfile
      refine ⟨fun p hp => ?_, fun g hg => Or.inr ⟨file, hmem, hg⟩⟩
      rcases (mem_loaded_merge hnew _ _ p).mp hp with rfl | hp
      · exact hmem
      · exact hs p hp

/-! ## Nothing reachable is missed -/

/-- A clean file that is passed over in the end is loaded, unless it is excluded or does not
parse. -/
theorem mem_loaded_of_passes (hs : w.Accurate s) (hclean : DoneClean s) (hp : p.IsClean)
    (hpass : w.Passes s p) (hex : w.exclude.excludes p = false)
    (hfacts : ∃ facts, w.HasFacts p facts) : p ∈ s.loaded := by
  have hdone : s.isDone p = true := hpass.resolve_right (by simp [hex])
  rcases hclean.lists_of_isDone hp hdone with hloaded | hunparsed
  · exact hloaded
  · obtain ⟨-, reason, hreason⟩ := hs.unparsed p hunparsed
    obtain ⟨facts, hfacts⟩ := hfacts
    exact absurd hfacts (not_hasFacts_of_unparsed hreason)

/-- The loaded files contain what they admit. -/
theorem Search.mem_loaded_of_admits (hw : w.host.ResolvesCleanly)
    (hrec : w.options.recurse = true) (h : w.Search {} w.starts events (.ok s))
    (hp : w.Admits {p | p ∈ s.loaded} p) : p ∈ s.loaded := by
  have hacc := h.accurate w.accurate_empty
  have hclean := h.doneClean hw doneClean_empty (fun _ => isClean_starts)
  obtain ⟨hex, hfacts, hstart | ⟨f, hf, himp⟩⟩ := hp
  · exact mem_loaded_of_passes hacc hclean (isClean_starts hstart) (h.covers p hstart) hex hfacts
  · obtain ⟨-, exports, imports, hparsed⟩ := hacc.loaded f hf
    have hfollow := mem_follow_of_imports hw hrec hparsed himp
    have hlists : s.Lists f := Or.inl hf
    have hsettled := h.settled hw (fun _ => isClean_starts) (hclean f hlists) rfl hlists.isDone
    have hpass := hsettled.follow p hfollow
    exact mem_loaded_of_passes hacc hclean (himp.isClean hw) hpass hex hfacts

/-! ## Reachability -/

/-- **A walk loads exactly what it can reach.** With recursion the loaded files are the least
set of files that are not excluded, parse, and are entries or local imports of files of the
set. Without recursion they are the entries that are not excluded and parse. -/
theorem loadedFiles_eq_reachable (hw : w.host.ResolvesCleanly) {budget : Nat} {run : Run}
    (hwalk : w.walk budget = some run) (hok : run.result = .ok s) :
    (w.options.recurse = true →
      IsLeast {S : Set Path | ∀ p, p ∈ S ↔ w.Admits S p} {p | p ∈ s.toGraph.loadedFiles}) ∧
    (w.options.recurse = false →
      ∀ p, p ∈ s.toGraph.loadedFiles ↔
        p ∈ w.starts ∧ w.exclude.excludes p = false ∧ ∃ facts, w.HasFacts p facts) := by
  have hsearch := search_of_walk hwalk
  rw [hok] at hsearch
  have hacc := hsearch.accurate w.accurate_empty
  have hclean := hsearch.doneClean hw doneClean_empty (fun _ => isClean_starts)
  constructor
  · intro hrec
    have hleast : ∀ S : Set Path, (∀ p, w.Admits S p → p ∈ S) → ∀ p ∈ s.loaded, p ∈ S := by
      intro S hS
      refine hsearch.loaded_subset (fun p hex hfacts hp => ?_) (by simp) (fun f hf => Or.inl hf)
      refine hS p ⟨hex, hfacts, hp.imp_right ?_⟩
      rintro ⟨f, hf, hfollow⟩
      exact ⟨f, hf, imports_of_mem_follow hfollow⟩
    have hclosed : ∀ p, w.Admits {p | p ∈ s.loaded} p → p ∈ s.loaded :=
      fun p => hsearch.mem_loaded_of_admits hw hrec
    -- What the loaded files admit is closed as well, so it contains them.
    refine ⟨fun p => ⟨hleast _ (fun q hq => hq.mono hclosed) p, hclosed p⟩, ?_⟩
    intro S hS p hp
    exact hleast S (fun q => (hS q).mpr) p hp
  · intro hrec p
    constructor
    · refine hsearch.loaded_subset
        (S := {p | p ∈ w.starts ∧ w.exclude.excludes p = false ∧ ∃ facts, w.HasFacts p facts})
        ?_ (by simp) (fun f hf => Or.inl hf) p
      rintro p hex hfacts (hp | ⟨f, -, hf⟩)
      · exact ⟨hp, hex, hfacts⟩
      · simp [follow, hrec] at hf
    · rintro ⟨hstart, hex, hfacts⟩
      exact mem_loaded_of_passes hacc hclean (isClean_starts hstart) (hsearch.covers p hstart) hex
        hfacts

/-- The cycle of the small project is loaded, its unparsed file is not, and without recursion
the entry comes alone. -/
theorem loadedFiles_eq_reachable_sample :
    IsLeast {S : Set Path | ∀ p, p ∈ S ↔ (sample [⟨"a.js"⟩] true).Admits S p}
      {p | p ∈ [(⟨"/src/a.js"⟩ : Path), ⟨"/src/b.js"⟩]} ∧
    ∀ p, p ∈ [(⟨"/src/b.js"⟩ : Path)] ↔
      p ∈ (sample [⟨"b.js"⟩] false).starts
        ∧ (sample [⟨"b.js"⟩] false).exclude.excludes p = false
        ∧ ∃ facts, (sample [⟨"b.js"⟩] false).HasFacts p facts := by
  obtain ⟨run, s, hwalk, hok, hfiles⟩ : ∃ run s, (sample [⟨"a.js"⟩] true).walk 3 = some run ∧
      run.result = .ok s ∧ s.toGraph.loadedFiles = [⟨"/src/a.js"⟩, ⟨"/src/b.js"⟩] :=
    ⟨_, _, rfl, rfl, rfl⟩
  obtain ⟨run', s', hwalk', hok', hfiles'⟩ : ∃ run s,
      (sample [⟨"b.js"⟩] false).walk 0 = some run ∧
        run.result = .ok s ∧ s.toGraph.loadedFiles = [⟨"/src/b.js"⟩] := ⟨_, _, rfl, rfl, rfl⟩
  rw [← hfiles, ← hfiles']
  exact ⟨(loadedFiles_eq_reachable Host.resolvesCleanly_sample hwalk hok).1 rfl,
    (loadedFiles_eq_reachable Host.resolvesCleanly_sample hwalk' hok').2 rfl⟩

end Walker

end ModuleGraph
