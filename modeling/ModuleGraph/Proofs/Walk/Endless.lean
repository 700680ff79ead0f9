import ModuleGraph.Proofs.Path.Entry
import ModuleGraph.Proofs.Walk.Locality

set_option autoImplicit false

/-! # Walks that end, and walks that do not

A walk ends exactly when it reads finitely many files (`exists_walk_iff`). For this it is enough
that finitely many of the files it can come to are readable (`Walker.IsFinite`); how these are
spelled elsewhere, and what lies on the host besides, does not matter. A walk that ends fails
exactly when it comes to a file that fails (`walk_error_iff_firstFailure`).

A walk that reads on forever never comes to the failing files that wait behind
(`endless_never_fails`): in `Walker.endless` every file imports the next one, so each search would
have to hold a search from a later file (`not_search_endless`).
-/

namespace ModuleGraph

namespace Walker

variable {w : Walker} {s s' : WalkState} {file f p : Path} {files : List Path}
  {events : List Event} {e : GraphError} {result : Except GraphError WalkState} {c : Progress}

/-! ## Finitely many files -/

/-- Finitely many of the files that a walk comes to are readable. -/
def IsFinite (w : Walker) : Prop :=
  ∃ files : List Path, ∀ f source, w.Reached f → w.host.read f = .ok source → f ∈ files

theorem exists_walk_of_search (h : w.Search {} w.starts events result) :
    ∃ run, ∃ budget, ∀ budget' ≥ budget, w.walk budget' = some run := by
  obtain ⟨budget, hbudget⟩ := walk_of_search h
  exact ⟨_, budget, hbudget⟩

theorem exists_walk_of_isFinite (h : w.IsFinite) :
    ∃ run, ∃ budget, ∀ budget' ≥ budget, w.walk budget' = some run := by
  obtain ⟨bound, hbound⟩ := h
  have hconfined : w.Confined (fun p => w.exclude.excludes p = false → w.Reached p) bound := by
    constructor
    · intro p hp hex g hg hgex
      exact (hp hex).follow hg hgex
    · intro p source hp hex hread
      exact ⟨p, hbound p source (hp hex) hread, Path.same_refl p⟩
  have hstarts : ∀ f ∈ w.starts, w.exclude.excludes f = false → w.Reached f :=
    fun f hf hex => .entry hf hex
  obtain ⟨events, result, hsearch⟩ := hconfined.exists_search {} hstarts
  exact exists_walk_of_search hsearch

/-- **A walk ends exactly when it reads finitely many files.** -/
theorem exists_walk_iff :
    (∃ budget run, w.walk budget = some run) ↔
      ∃ files : List Path, ∀ f, w.Opens f → f ∈ files := by
  constructor
  · rintro ⟨budget, run, hwalk⟩
    exact ⟨run.reads, fun f hf => (mem_reads_iff_opens hwalk).mpr hf⟩
  · rintro ⟨bound, hbound⟩
    have hlists : ∀ c, w.Reaches c → w.ListsNext bound c := by
      intro c hc file waiting source hwaiting hnew _
      exact ⟨file, hbound file ⟨c, hc, ⟨waiting, hwaiting⟩, hnew⟩, Path.same_refl file⟩
    have hacc : Acc (fun c' c => w.Turn c c') w.start :=
      acc_of_invariant (fun _ _ hc hturn => hc.tail hturn) hlists .refl
    obtain ⟨events, result, hsearch⟩ := exists_search_of_acc hacc
    obtain ⟨run, budget, hbudget⟩ := exists_walk_of_search hsearch
    exact ⟨budget, run, hbudget budget (Nat.le_refl budget)⟩

/-- **A walk fails exactly when it comes to a file that fails**, and then with the error of the
first such file in depth-first order, provided that finitely many of the files it comes to are
readable. Without this a walk that ends does the same, and it ends exactly when it reads finitely
many files. A file that does not parse and need not never fails. -/
theorem walk_error_iff_firstFailure (hw : w.host.ResolvesCleanly) :
    (w.IsFinite → ∃ run, (∃ budget, ∀ budget' ≥ budget, w.walk budget' = some run) ∧
      w.FailsFirst run) ∧
    (∀ budget run, w.walk budget = some run → w.FailsFirst run) ∧
    ((∃ budget run, w.walk budget = some run) ↔
      ∃ files : List Path, ∀ f, w.Opens f → f ∈ files) ∧
    ∀ f source reason, w.host.read f = .ok source → w.host.parse f source = .error reason →
      w.options.isStrict f = false → ∀ e, ¬ w.Fails f e := by
  refine ⟨fun hfin => ?_, fun _ _ => failsFirst_of_walk hw, exists_walk_iff,
    fun f source reason hread hparse hlenient e => not_fails_of_lenient hread hparse hlenient⟩
  obtain ⟨run, budget, hbudget⟩ := exists_walk_of_isFinite hfin
  exact ⟨run, ⟨budget, hbudget⟩, failsFirst_of_walk hw (hbudget budget (Nat.le_refl budget))⟩

/-- In the small project the walk from `e` goes through the cycle and past the unparsed file
before it comes to the file that is not there. -/
theorem walk_error_iff_firstFailure_sample :
    ∃ f, (sample [⟨"e.js"⟩] true).FirstFailure f (.missingFile ⟨"/src/d.js"⟩) := by
  have hfin : (sample [⟨"e.js"⟩] true).IsFinite := by
    refine ⟨[⟨"/src/a.js"⟩, ⟨"/src/b.js"⟩, ⟨"/src/c.js"⟩, ⟨"/src/e.js"⟩], ?_⟩
    intro f source _ hread
    have hmem : f.text ∈ ["/src/a.js", "/src/b.js", "/src/c.js", "/src/e.js"] := by
      simp only [sample, Host.sample] at hread
      split at hread
      · assumption
      · cases hread
    obtain ⟨text⟩ := f
    simpa using hmem
  obtain ⟨hfails, -⟩ := walk_error_iff_firstFailure (w := sample [⟨"e.js"⟩] true)
    Host.resolvesCleanly_sample
  obtain ⟨run, ⟨budget, hbudget⟩, hrun⟩ := hfails hfin
  have hwalk : (sample [⟨"e.js"⟩] true).walk 4 = some run := by
    obtain ⟨run', hwalk'⟩ : ∃ run', (sample [⟨"e.js"⟩] true).walk 4 = some run' := ⟨_, rfl⟩
    rw [hwalk', walk_unique hwalk' (hbudget budget (Nat.le_refl budget))]
  have herr : ((sample [⟨"e.js"⟩] true).walk 4).map Run.result
      = some (.error (.missingFile ⟨"/src/d.js"⟩)) := rfl
  rw [hwalk] at herr
  exact (hrun.error_iff _).mp (Option.some.inj herr)

/-! ## A walk without end -/

/-- The file of the name `a` below a path. -/
def below (p : Path) : Path := Path.absolutize ⟨"a"⟩ p

/-- A host on which every file but the root imports the file below it. -/
def endlessHost : Host where
  read file := if file = ⟨"/"⟩ then .error .isDirectory else .ok ""
  parse file _ := .ok { imports := [((below file).text, [])] }
  resolve specifier _ := .ok (Path.clean ⟨specifier⟩)

/-- The walk goes down from `/a`, and the root, which cannot be read, waits behind. -/
def endless : Walker where
  host := endlessHost
  options := { files := [⟨"/a"⟩, ⟨"/"⟩], libraryDirs := [] }
  exclude := {}
  cwd := ⟨"/"⟩

theorem resolvesCleanly_endlessHost : endlessHost.ResolvesCleanly := by
  intro specifier directory target h _
  cases h
  exact Path.clean_clean _

theorem isLibrary_nil (importer target : Path) (h : target.isAbsolute = true) :
    importer.isLibrary target [] = false := by
  rw [Path.isLibrary, if_pos h]
  cases target.relativeTo? importer with
  | none => rfl
  | some way =>
      simp only [Path.entersAfterClimb]
      cases way.components.dropWhile Path.isClimb with
      | nil => simp
      | cons d rest => cases d <;> simp

theorem isClean_below (p : Path) : (below p).IsClean := Path.isClean_absolutize _ p

theorem isAbsolute_below (hp : p.isAbsolute = true) : (below p).isAbsolute = true :=
  Path.isAbsolute_absolutize hp _

/-- The file below has one component more. -/
theorem length_components_below (habs : p.isAbsolute = true) (hclean : p.IsClean) :
    (below p).components.length = p.components.length + 1 := by
  have hlength : (p.components.foldl Path.cleanStep []).length = p.components.length := by
    rw [← List.length_reverse, ← Path.cleanComponents, ← Path.components_clean_of_isAbsolute habs,
      hclean]
  have hjoin : Path.cleanComponents (p.join ⟨"a"⟩).components
      = (.name "a" :: p.components.foldl Path.cleanStep []).reverse :=
    congrArg List.reverse (Path.foldl_cleanStep_join rfl p)
  have hbelow : (below p).components = Path.cleanComponents (p.join ⟨"a"⟩).components := by
    rw [below, Path.absolutize_eq]
    exact Path.components_clean (by simp [hjoin])
  rw [hbelow, hjoin, List.length_reverse, List.length_cons, hlength]

theorem hasFacts_endless (hfile : file ≠ ⟨"/"⟩) :
    endless.HasFacts file { imports := [((below file).text, [])] } :=
  ⟨"", if_neg hfile, rfl⟩

theorem inspect_endless (hfile : file ≠ ⟨"/"⟩) :
    endless.inspect file = .parsed [] [(below file, [])] := by
  have hresolve : endless.host.resolve (below file).text file.directory = .ok (below file) :=
    congrArg Except.ok (isClean_below file)
  refine inspect_eq_parsed_iff.mpr ⟨_, hasFacts_endless hfile, rfl, ?_⟩
  exact resolveAll_cons_eq_ok_iff.mpr ⟨below file, [], hresolve, rfl, rfl⟩

theorem follow_endless (hfile : file ≠ ⟨"/"⟩) (habs : file.isAbsolute = true) :
    endless.follow file = [below file] := by
  have hlibrary : file.isLibrary (below file) endless.options.libraryDirs = false :=
    isLibrary_nil file (below file) (isAbsolute_below habs)
  rw [follow_of_recurse rfl, localsOf, inspect_endless hfile]
  simp [locals, hlibrary, firstOccurrences]

/-- No search comes to an end from a file that lies below all files that are done. -/
theorem not_search_endless (h : endless.Search s files events result) {rest : List Path}
    (hfiles : files = file :: rest) (habs : file.isAbsolute = true) (hclean : file.IsClean)
    (hdeep : 1 < file.components.length)
    (hdone : ∀ p, s.isDone p = true → p.components.length < file.components.length) : False := by
  have hfile : ∀ p : Path, 1 < p.components.length → p ≠ ⟨"/"⟩ := by
    rintro p hp rfl
    exact absurd hp (by decide)
  have hstep : ∀ {s s₁ : WalkState} {file : Path}, file.isAbsolute = true → file.IsClean →
      (∀ p, s.isDone p = true → p.components.length < file.components.length) →
      endless.Takes s file s₁ →
      ∀ p, s₁.isDone p = true → p.components.length < (below file).components.length := by
    intro s s₁ file habs hclean hdone htakes p hp
    rw [length_components_below habs hclean]
    rw [htakes.isDone, Bool.or_eq_true] at hp
    rcases hp with hsame | hp
    · rw [(Path.same_iff file p).mp hsame]
      exact Nat.lt_succ_self _
    · exact Nat.lt_succ_of_lt (hdone p hp)
  -- The next file lies below all that are done, so it is never passed over, and it is taken; then
  -- the search holds one from the file below it, of which the same is true.
  induction h generalizing file rest with
  | nil => cases hfiles
  | skip hpass _ _ =>
      cases hfiles
      rcases hpass with hpass | hpass
      · exact Nat.lt_irrefl _ (hdone _ hpass)
      · cases hpass
  | stop _ hfails =>
      cases hfiles
      rw [← inspect_eq_broken_iff, inspect_endless (hfile _ hdeep)] at hfails
      cases hfails
  | fail _ htakes _ ih =>
      cases hfiles
      refine ih (follow_endless (hfile _ hdeep) habs) (isAbsolute_below habs) (isClean_below _) ?_
        (hstep habs hclean hdone htakes)
      rw [length_components_below habs hclean]
      exact Nat.lt_succ_of_lt hdeep
  | go _ htakes _ _ ih _ =>
      cases hfiles
      refine ih (follow_endless (hfile _ hdeep) habs) (isAbsolute_below habs) (isClean_below _) ?_
        (hstep habs hclean hdone htakes)
      rw [length_components_below habs hclean]
      exact Nat.lt_succ_of_lt hdeep

/-- **A walk without end reports no error**, although it has an entry that cannot be read. -/
theorem endless_never_fails :
    endless.host.ResolvesCleanly ∧ endless.cwd.isAbsolute = true ∧
    (∃ f e, endless.Reached f ∧ endless.Fails f e) ∧
    ¬ ∃ budget run, endless.walk budget = some run := by
  refine ⟨resolvesCleanly_endlessHost, rfl, ⟨⟨"/"⟩, _, ?_, .unreadable rfl nofun⟩, ?_⟩
  · exact .entry (by decide) rfl
  · rintro ⟨budget, run, hwalk⟩
    have hstarts : endless.starts = [⟨"/a"⟩, ⟨"/"⟩] := by decide
    have hsearch := search_of_walk hwalk
    refine not_search_endless hsearch hstarts (by decide) (by decide) (by decide) ?_
    rintro p ⟨⟩

end Walker

end ModuleGraph
