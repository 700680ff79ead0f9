import ModuleGraph.Proofs.Walk.Merge
import ModuleGraph.Proofs.Walk.Pruning

set_option autoImplicit false

/-! # Walks from several entries

The walk from the entries `A ++ B` is the walk from `A` and then one from `B` in the state that
the first one left behind. It succeeds exactly when the walks from `A` and from `B` succeed each on
its own, and then its graph is the union of their graphs. What a graph holds is known from the
files that were read (`Walker.Explored`), so it is enough to know these: they are the files of the
first walk, followed by those of the second one that the first one has not done
(`reads_append`). In particular nothing depends on the order, the number or the spelling of the
entries but the order of the statistics.
-/

namespace ModuleGraph

/-! ## Comparing graphs -/

/-- The graph `ab` holds what the graphs `a` and `b` hold. Exports come from one of the two, and
where both have some these agree. Imported names are united, each once, by their bytes. -/
structure Graph.Unites (ab a b : Graph) : Prop where
  loadedFiles : ∀ p, p ∈ ab.loadedFiles ↔ p ∈ a.loadedFiles ∨ p ∈ b.loadedFiles
  exports : ∀ p names, ab.exports.get? p = some names ↔
    a.exports.get? p = some names ∨ b.exports.get? p = some names
  imported : ∀ p, (∃ names, ab.imports.get? p = some names) ↔
    (∃ names, a.imports.get? p = some names) ∨ ∃ names, b.imports.get? p = some names
  imports : ∀ p names, ab.imports.get? p = some names →
    names.Pairwise (fun x y => utf8 x < utf8 y) ∧
    ∀ name, name ∈ names ↔ (∃ part, a.imports.get? p = some part ∧ name ∈ part)
      ∨ ∃ part, b.imports.get? p = some part ∧ name ∈ part

/-- The graphs differ at most in the order of their statistics. Imports are compared as maps, that
is, up to the spelling of their keys. -/
structure Graph.SameUpToOrder (g g' : Graph) : Prop where
  loadedFiles : g.loadedFiles = g'.loadedFiles
  exports : g.exports = g'.exports
  imports : ∀ p, g.imports.get? p = g'.imports.get? p
  stats : g.stats.Perm g'.stats

/-- A union of names holds one list of names at each path. -/
theorem IsUnion.get?_eq {m m' : PathMap (List String)} {taken : Path → List String → Prop}
    (h : IsUnion m taken) (h' : IsUnion m' taken) (p : Path) : m.get? p = m'.get? p := by
  have hnone : m.get? p = none ↔ m'.get? p = none := by
    rw [PathMap.get?_eq_none_iff, PathMap.get?_eq_none_iff, ← Bool.not_eq_true, ← Bool.not_eq_true,
      h.has_iff, h'.has_iff]
  cases hp : m.get? p with
  | none => exact (hnone.mp hp).symm
  | some names =>
      cases hp' : m'.get? p with
      | none =>
          rw [hnone.mpr hp'] at hp
          cases hp
      | some names' =>
          have hmem : ∀ name, name ∈ names ↔ name ∈ names' := by
            intro name
            rw [h.mem_iff p names hp, h'.mem_iff p names' hp']
          have hsorted := h.pairwise p names hp
          have hsorted' := h'.pairwise p names' hp'
          have hperm : names.Perm names' :=
            (List.perm_ext_iff_of_nodup (hsorted.imp ne_of_lt) (hsorted'.imp ne_of_lt)).mpr hmem
          rw [hperm.eq_of_pairwise (fun _ _ _ _ hab hba => absurd hab hba.asymm) hsorted hsorted']

/-- What is at a path, once it is known that something is. -/
theorem IsUnion.mem_get? {m : PathMap (List String)} {taken : Path → List String → Prop}
    (h : IsUnion m taken) (p : Path) (name : String) :
    (∃ names, m.get? p = some names ∧ name ∈ names) ↔ ∃ part, taken p part ∧ name ∈ part := by
  rw [← h.mem_getD]
  cases m.get? p <;> simp

theorem IsUnion.exists_get? {m : PathMap (List String)} {taken : Path → List String → Prop}
    (h : IsUnion m taken) (p : Path) :
    (∃ names, m.get? p = some names) ↔ ∃ part, taken p part := by
  rw [← h.has_iff, ← Option.isSome_iff_exists, ← Option.ne_none_iff_isSome, Ne,
    PathMap.get?_eq_none_iff, Bool.not_eq_false]

/-- Maps with clean keys and the same values are equal, spelling included. -/
theorem PathMap.eq_of_isClean {α : Type} {m m' : PathMap α} (hm : Ascending m.keys)
    (hm' : Ascending m'.keys) (hclean : ∀ p ∈ m.keys, p.IsClean)
    (hclean' : ∀ p ∈ m'.keys, p.IsClean) (hget : ∀ p, m.get? p = m'.get? p) : m = m' := by
  have hmem : ∀ {m : PathMap α} {p : Path}, (∀ q ∈ m.keys, q.IsClean) → p.IsClean →
      (p ∈ m.keys ↔ m.get? p ≠ none) := by
    intro m p hkeys hp
    rw [Ne, PathMap.get?_eq_none_iff, Bool.not_eq_false, PathSet.has_iff]
    constructor
    · intro hmem
      exact ⟨p, hmem, Path.same_refl p⟩
    · rintro ⟨q, hq, hsame⟩
      rwa [← (hkeys q hq).eq_of_same hp hsame]
  have hkeys : m.keys = m'.keys := by
    refine hm.eq_of_mem_iff hm' fun p => ⟨fun hp => ?_, fun hp => ?_⟩
    · rw [hmem hclean' (hclean p hp), ← hget]
      exact (hmem hclean (hclean p hp)).mp hp
    · rw [hmem hclean (hclean' p hp), hget]
      exact (hmem hclean' (hclean' p hp)).mp hp
  exact PathMap.ext hkeys hm fun p _ => hget p

/-- Whatever a specifier leads to is in normal form, also where it is no absolute path. -/
def Host.ResolvesAllCleanly (host : Host) : Prop :=
  ∀ specifier directory target, host.resolve specifier directory = .ok target → target.IsClean

namespace Walker

variable {w : Walker} {s s' sA sB : WalkState} {p : Path}
  {files reads reads' readsA readsB : List Path} {events eventsA eventsB : List Event}
  {run runA runB : Run}

/-! ## What was read determines what was found -/

/-- What a search from the empty state leaves behind when it has read the given files. -/
structure Explored (w : Walker) (reads : List Path) (s : WalkState) : Prop where
  consistent : w.Consistent reads s
  merged : w.Merged s
  accurate : w.Accurate s
  clean : DoneClean s
  closed : w.Closed s

theorem Search.explored (hw : w.host.ResolvesCleanly) (h : w.Search {} files events (.ok s))
    (hfiles : ∀ f ∈ files, f.IsClean) : w.Explored (events.filterMap Event.read?) s :=
  ⟨h.consistent, h.merged w.merged_empty, h.accurate w.accurate_empty,
    h.doneClean hw doneClean_empty hfiles, h.isClosed hw hfiles⟩

namespace Explored

theorem lists_iff (h : w.Explored reads s) : s.Lists p ↔ p ∈ reads := by
  rw [h.consistent.perm_reads.mem_iff, List.mem_append]
  rfl

theorem isClean (h : w.Explored reads s) (hp : p ∈ reads) : p.IsClean :=
  h.clean p (h.lists_iff.mpr hp)

theorem isDone_iff (h : w.Explored reads s) (hp : p.IsClean) : s.isDone p = true ↔ p ∈ reads := by
  rw [← h.lists_iff]
  exact ⟨h.clean.lists_of_isDone hp, WalkState.Lists.isDone⟩

theorem mem_loaded_iff (h : w.Explored reads s) :
    p ∈ s.loaded ↔ p ∈ reads ∧ ∃ facts, w.HasFacts p facts := by
  rw [← h.lists_iff]
  constructor
  · intro hp
    obtain ⟨-, exports, imports, hparsed⟩ := h.accurate.loaded p hp
    exact ⟨Or.inl hp, hasFacts_of_parsed hparsed⟩
  · rintro ⟨hp | hp, facts, hfacts⟩
    · exact hp
    · obtain ⟨-, reason, hreason⟩ := h.accurate.unparsed p hp
      exact absurd hfacts (not_hasFacts_of_unparsed hreason)

theorem get?_exports (h : w.Explored reads s) (names : List String) :
    s.exports.get? p = some names ↔
      ∃ f ∈ s.loaded, f.same p = true ∧ ∃ facts, w.HasFacts f facts ∧ facts.exports = names := by
  constructor
  · intro hp
    have hhas : s.exports.keys.has p = true := by
      rw [← Bool.not_eq_false, ← PathMap.get?_eq_none_iff, hp]
      simp
    rw [h.consistent.keys_exports, PathSet.has_iff] at hhas
    obtain ⟨f, hf, hsame⟩ := hhas
    obtain ⟨facts, hfacts, hget⟩ := h.merged.exports f hf
    rw [PathMap.get?_congr _ hsame, hp, Option.some.injEq] at hget
    exact ⟨f, hf, hsame, facts, hfacts, hget.symm⟩
  · rintro ⟨f, hf, hsame, facts, hfacts, rfl⟩
    obtain ⟨facts', hfacts', hget⟩ := h.merged.exports f hf
    rw [← PathMap.get?_congr _ hsame, hget, hfacts.unique hfacts']

theorem get?_exports_toGraph (h : w.Explored reads s) (names : List String) :
    s.toGraph.exports.get? p = some names ↔
      ∃ f ∈ s.loaded, f.same p = true
        ∧ ∃ facts, w.HasFacts f facts ∧ sortNames facts.exports = names := by
  have hmap : s.toGraph.exports.get? p = (s.exports.get? p).map sortNames :=
    PathMap.get?_map s.exports sortNames p
  rw [hmap, Option.map_eq_some_iff]
  constructor
  · rintro ⟨raw, hraw, rfl⟩
    obtain ⟨f, hf, hsame, facts, hfacts, rfl⟩ := (h.get?_exports raw).mp hraw
    exact ⟨f, hf, hsame, facts, hfacts, rfl⟩
  · rintro ⟨f, hf, hsame, facts, hfacts, rfl⟩
    exact ⟨facts.exports, (h.get?_exports _).mpr ⟨f, hf, hsame, facts, hfacts, rfl⟩, rfl⟩

/-- Where one walk loads some of the files of another one, with the same facts, the exports of its
graph are those of these files. -/
theorem exports_eq_filter {w' : Walker} (h : w.Explored reads s) (h' : w'.Explored reads' s')
    (keep : Path → Bool) (hloaded : s'.loaded = s.loaded.filter keep)
    (hfacts : ∀ p ∈ s'.loaded, ∀ facts, w'.HasFacts p facts → w.HasFacts p facts) :
    s'.toGraph.exports = s.toGraph.exports.filter fun entry => keep entry.1 := by
  have hkeys : s'.exports.keys
      = PathMap.keys (s.exports.filter fun entry => keep entry.1) := by
    have hfilter : PathMap.keys (s.exports.filter fun entry => keep entry.1)
        = s.exports.keys.filter keep := by
      rw [PathMap.keys, PathMap.keys, List.filter_map]
      rfl
    rw [hfilter, h.consistent.keys_exports, h'.consistent.keys_exports, hloaded]
  have hexports : s'.exports = s.exports.filter fun entry => keep entry.1 := by
    refine PathMap.ext hkeys (h'.consistent.keys_exports ▸ h'.merged.ascending) fun p hp => ?_
    rw [h'.consistent.keys_exports] at hp
    obtain ⟨hmem, hkeep⟩ : p ∈ s.loaded ∧ keep p = true := by
      rw [hloaded] at hp
      exact List.mem_filter.mp hp
    -- A key that is the same path as `p` is clean as well, so it is `p` and is kept.
    have hget : PathMap.get? (s.exports.filter fun entry => keep entry.1) p
        = s.exports.get? p := by
      refine PathMap.get?_filter keep fun k hk hsame => ?_
      rw [h.consistent.keys_exports] at hk
      rw [(h.clean k (Or.inl hk)).eq_of_same (h.clean p (Or.inl hmem)) hsame]
      exact hkeep
    obtain ⟨facts, hsays, hnames⟩ := h.merged.exports p hmem
    obtain ⟨facts', hsays', hnames'⟩ := h'.merged.exports p hp
    rw [hget, hnames, hnames', hsays.unique (hfacts p hp facts' hsays')]
  show s'.exports.map _ = (s.exports.map _).filter _
  rw [hexports, List.filter_map]
  rfl

/-- What was read in either of two walks gives the union of their graphs. -/
theorem unites (h : w.Explored reads s) (hA : w.Explored readsA sA) (hB : w.Explored readsB sB)
    (hreads : ∀ p, p ∈ reads ↔ p ∈ readsA ∨ p ∈ readsB) :
    s.toGraph.Unites sA.toGraph sB.toGraph := by
  have hloaded : ∀ p, p ∈ s.loaded ↔ p ∈ sA.loaded ∨ p ∈ sB.loaded := by
    intro p
    rw [h.mem_loaded_iff, hA.mem_loaded_iff, hB.mem_loaded_iff, hreads, or_and_right]
  -- All that a graph holds is said by some loaded file.
  have hexists : ∀ Q : Path → Prop,
      (∃ f ∈ s.loaded, Q f) ↔ (∃ f ∈ sA.loaded, Q f) ∨ ∃ f ∈ sB.loaded, Q f := by
    intro Q
    simp only [hloaded, or_and_right, exists_or]
  have htaken : ∀ p part, (∃ f ∈ s.loaded, w.TakesFrom f p part) ↔
      (∃ f ∈ sA.loaded, w.TakesFrom f p part) ∨ ∃ f ∈ sB.loaded, w.TakesFrom f p part :=
    fun p part => hexists _
  refine ⟨hloaded, fun p names => ?_, fun p => ?_, fun p names hp => ⟨?_, fun name => ?_⟩⟩
  · rw [h.get?_exports_toGraph, hA.get?_exports_toGraph, hB.get?_exports_toGraph]
    exact hexists _
  · show (∃ names, s.imports.get? p = some names) ↔ (∃ names, sA.imports.get? p = some names)
      ∨ ∃ names, sB.imports.get? p = some names
    rw [h.merged.imports.exists_get?, hA.merged.imports.exists_get?,
      hB.merged.imports.exists_get?]
    simp only [htaken, exists_or]
  · exact (h.merged.imports.pairwise p names hp).imp utf8_lt_of_lt
  · show name ∈ names ↔ (∃ part, sA.imports.get? p = some part ∧ name ∈ part)
      ∨ ∃ part, sB.imports.get? p = some part ∧ name ∈ part
    rw [h.merged.imports.mem_iff p names hp, hA.merged.imports.mem_get?,
      hB.merged.imports.mem_get?]
    simp only [htaken, or_and_right, exists_or]

/-- The graph is known from the files that were read, but for the order of its statistics. -/
theorem sameUpToOrder (h : w.Explored reads s) (h' : w.Explored reads' s')
    (hreads : ∀ p, p ∈ reads ↔ p ∈ reads') : s.toGraph.SameUpToOrder s'.toGraph := by
  have hloaded : s.loaded = s'.loaded := by
    refine h.merged.ascending.eq_of_mem_iff h'.merged.ascending fun p => ?_
    rw [h.mem_loaded_iff, h'.mem_loaded_iff, hreads]
  have hexports : s.exports = s'.exports := by
    have hkeys : s.exports.keys = s'.exports.keys := by
      rw [h.consistent.keys_exports, h'.consistent.keys_exports, hloaded]
    refine PathMap.ext hkeys (h.consistent.keys_exports ▸ h.merged.ascending) fun p _ => ?_
    refine Option.ext fun names => ?_
    rw [h.get?_exports, h'.get?_exports, hloaded]
  have himports : ∀ p, s.imports.get? p = s'.imports.get? p :=
    h.merged.imports.get?_eq (hloaded ▸ h'.merged.imports)
  -- The same files were read, in some order, and the statistics follow this order.
  have hperm : reads.Perm reads' :=
    (List.perm_ext_iff_of_nodup h.consistent.nodup h'.consistent.nodup).mpr hreads
  refine ⟨hloaded, ?_, himports, ?_⟩
  · show s.exports.map _ = s'.exports.map _
    rw [hexports]
  · show s.stats.Perm s'.stats
    rw [h.consistent.stats, h'.consistent.stats]
    exact (hperm.filterMap _).map _

end Explored

/-! ## Clean imports -/

theorem mem_keys_foldl_addImport {imports : List (Path × List String)}
    {m : PathMap (List String)} (hp : p ∈ (imports.foldl WalkState.addImport m).keys) :
    p ∈ m.keys ∨ ∃ names, (p, names) ∈ imports := by
  induction imports generalizing m with
  | nil => exact Or.inl hp
  | cons entry rest ih =>
      rcases ih hp with hm | ⟨names, hnames⟩
      · rw [WalkState.addImport, PathMap.keys_alter] at hm
        rcases PathSet.mem_insert_subset _ _ hm with rfl | hm
        · exact Or.inr ⟨entry.2, List.mem_cons_self⟩
        · exact Or.inl hm
      · exact Or.inr ⟨names, List.mem_cons_of_mem _ hnames⟩

theorem Search.isClean_keys (hw : w.host.ResolvesAllCleanly)
    (h : w.Search s files events (.ok s')) (hs : ∀ p ∈ s.imports.keys, p.IsClean) :
    ∀ p ∈ s'.imports.keys, p.IsClean := by
  refine h.preserves_of_takes (P := fun s => ∀ p ∈ s.imports.keys, p.IsClean) ?_ hs
  intro s file s' hs _ ht
  cases ht with
  | failed _ => exact hs
  | loaded hloaded =>
      intro p hp
      rcases mem_keys_foldl_addImport hp with hp | ⟨names, hmem⟩
      · exact hs p hp
      · obtain ⟨facts, -, -, hres⟩ := inspect_eq_parsed_iff.mp hloaded
        obtain ⟨specifier, -, hr⟩ := (mem_of_resolveAll hres p names).mp hmem
        exact hw specifier file.directory p hr

/-! ## One list of entries after another -/

/-- The files that a list of entries stands for. -/
def startsOf (w : Walker) (entries : List Path) : List Path := entries.map (·.absolutize w.cwd)

theorem startsOf_append (A B : List Path) : w.startsOf (A ++ B) = w.startsOf A ++ w.startsOf B :=
  List.map_append

theorem isClean_of_mem_startsOf {A : List Path} : ∀ f ∈ w.startsOf A, f.IsClean := by
  intro f hf
  obtain ⟨entry, -, rfl⟩ := List.mem_map.mp hf
  exact Path.isClean_absolutize entry w.cwd

/-- **The second list of entries reads what it would read alone, without the files that the first
one has done.** -/
theorem Search.append_entries (hw : w.host.ResolvesCleanly) {A B : List Path}
    (hA : w.Search {} (w.startsOf A) eventsA (.ok sA))
    (hB : w.Search {} (w.startsOf B) eventsB (.ok sB)) :
    ∃ events s, w.Search {} (w.startsOf (A ++ B)) events (.ok s) ∧
      events.filterMap Event.read? = eventsA.filterMap Event.read?
        ++ (eventsB.filterMap Event.read?).filter fun p => !sA.isDone p := by
  have hclosed : w.Closed sA := hA.isClosed hw isClean_of_mem_startsOf
  obtain ⟨later, s, hlater, -, hreads⟩ :=
    hB.prune hw hclosed isClean_of_mem_startsOf (t := sA) (fun _ => rfl)
  refine ⟨eventsA ++ later, s, ?_, ?_⟩
  · rw [startsOf_append]
    exact hA.append_ok hlater
  · rw [List.filterMap_append, hreads]

/-- Files that were all asked for in a walk that succeeded can be walked alone. -/
theorem Search.exists_search (hw : w.host.ResolvesCleanly) {A B : List Path}
    (h : w.Search {} (w.startsOf A) events (.ok s)) (hsub : ∀ f ∈ w.startsOf B, f ∈ w.startsOf A) :
    ∃ events s', w.Search {} (w.startsOf B) events (.ok s') := by
  have hclosed : w.Closed s := h.isClosed hw isClean_of_mem_startsOf
  refine hclosed.exists_search hw {} fun f hf => ⟨isClean_of_mem_startsOf f hf, ?_⟩
  exact h.covers f (hsub f hf)

/-- Whoever asks for fewer files reads no others. -/
theorem Search.reads_subset (hw : w.host.ResolvesCleanly) {A B : List Path}
    (hA : w.Search {} (w.startsOf A) eventsA (.ok sA))
    (hB : w.Search {} (w.startsOf B) eventsB (.ok sB))
    (hsub : ∀ f ∈ w.startsOf B, f ∈ w.startsOf A) :
    ∀ p ∈ eventsB.filterMap Event.read?, p ∈ eventsA.filterMap Event.read? := by
  have hexploredA := hA.explored hw isClean_of_mem_startsOf
  have hexploredB := hB.explored hw isClean_of_mem_startsOf
  -- In the state of the larger walk the smaller one has nothing left to do.
  obtain ⟨later, t, hlater, -, hreads⟩ :=
    hB.prune hw hexploredA.closed isClean_of_mem_startsOf (t := sA) (fun _ => rfl)
  obtain ⟨rfl, -⟩ := hlater.eq_of_passes fun f hf => hA.covers f (hsub f hf)
  intro p hp
  have hdone := List.filter_eq_nil_iff.mp hreads.symm p hp
  rw [Bool.not_eq_true, Bool.not_eq_false'] at hdone
  exact (hexploredA.isDone_iff (hexploredB.isClean hp)).mp hdone

/-! ## Statistics -/

/-- Of the files that do not parse, those are done in a state that are unparsed there. -/
theorem Explored.isDone_of_failure (h : w.Explored reads s) (hp : p.IsClean) {reason : String}
    (hfailure : w.parseFailure? p = some reason) : s.isDone p = s.unparsed.has p := by
  rw [WalkState.isDone, Bool.or_eq_right_iff_imp]
  intro hhas
  obtain ⟨f, hf, hsame⟩ := (PathSet.has_iff _ _).mp hhas
  obtain rfl := (h.clean f (Or.inl hf)).eq_of_same hp hsame
  obtain ⟨-, exports, imports, hparsed⟩ := h.accurate.loaded f hf
  rw [parseFailure?_of_parsed hparsed] at hfailure
  cases hfailure

theorem Explored.failures_filter_isDone (hA : w.Explored readsA sA) (hB : w.Explored readsB sB) :
    w.failures (readsB.filter fun p => !sA.isDone p)
      = (w.failures readsB).filter fun failure => !sA.unparsed.has failure.1 := by
  rw [failures_filter]
  refine List.filter_congr fun failure hmem => ?_
  obtain ⟨hread, hfailure⟩ := mem_failures.mp hmem
  rw [hA.isDone_of_failure (hB.isClean hread) hfailure]

/-! ## Walks -/

/-- The same walk from other entries. -/
def entering (w : Walker) (entries : List Path) : Walker :=
  { w with options := { w.options with files := entries } }

/-- The walk succeeds with the given run, which leaves the given state behind. -/
def Finishes (w : Walker) (run : Run) (s : WalkState) : Prop :=
  (∃ budget, w.walk budget = some run) ∧ run.result = .ok s

/-- A walk succeeds exactly when the search from its entries does. -/
theorem finishes_iff_search :
    w.Finishes run s ↔ w.Search {} w.starts run.events (.ok s) ∧ run.result = .ok s := by
  constructor
  · rintro ⟨⟨budget, hwalk⟩, hok⟩
    have hsearch := search_of_walk hwalk
    rw [hok] at hsearch
    exact ⟨hsearch, hok⟩
  · rintro ⟨hsearch, hok⟩
    obtain ⟨budget, hwalk⟩ := walk_of_search hsearch
    refine ⟨⟨budget, ?_⟩, hok⟩
    rw [hwalk budget (Nat.le_refl budget), ← hok]

def Succeeds (w : Walker) : Prop := ∃ run s, w.Finishes run s

/-- Searches do not depend on the entries that the options name. -/
theorem search_entering (A : List Path) {result : Except GraphError WalkState} :
    (w.entering A).Search s files events result ↔ w.Search s files events result := by
  constructor
  · intro h
    exact h.agree rfl fun f _ => Alike.agrees ⟨rfl, rfl, rfl, rfl, rfl, rfl⟩
  · intro h
    exact h.agree rfl fun f _ => Alike.agrees ⟨rfl, rfl, rfl, rfl, rfl, rfl⟩

theorem Finishes.search {A : List Path} (h : (w.entering A).Finishes run s) :
    w.Search {} (w.startsOf A) run.events (.ok s) :=
  (search_entering A).mp (finishes_iff_search.mp h).1

theorem finishes_of_search {A : List Path} (h : w.Search {} (w.startsOf A) events (.ok s)) :
    (w.entering A).Finishes ⟨events, .ok s⟩ s :=
  finishes_iff_search.mpr ⟨(search_entering A).mpr h, rfl⟩

theorem succeeds_entering_iff (A : List Path) :
    (w.entering A).Succeeds ↔ ∃ events s, w.Search {} (w.startsOf A) events (.ok s) := by
  constructor
  · rintro ⟨run, s, h⟩
    exact ⟨run.events, s, h.search⟩
  · rintro ⟨events, s, h⟩
    exact ⟨_, s, finishes_of_search h⟩

theorem succeeds_append_iff (hw : w.host.ResolvesCleanly) (A B : List Path) :
    (w.entering (A ++ B)).Succeeds ↔ (w.entering A).Succeeds ∧ (w.entering B).Succeeds := by
  simp only [succeeds_entering_iff]
  constructor
  · rintro ⟨events, s, h⟩
    have hsub : ∀ C, C ⊆ A ++ B → ∀ f ∈ w.startsOf C, f ∈ w.startsOf (A ++ B) :=
      fun C hC => List.map_subset _ hC
    exact ⟨h.exists_search hw (hsub A (List.subset_append_left A B)),
      h.exists_search hw (hsub B (List.subset_append_right A B))⟩
  · rintro ⟨⟨eventsA, sA, hA⟩, eventsB, sB, hB⟩
    obtain ⟨events, s, h, -⟩ := hA.append_entries hw hB
    exact ⟨events, s, h⟩

theorem reads_append (hw : w.host.ResolvesCleanly) {A B : List Path}
    (h : (w.entering (A ++ B)).Finishes run s) (hA : (w.entering A).Finishes runA sA)
    (hB : (w.entering B).Finishes runB sB) :
    run.reads = runA.reads ++ runB.reads.filter fun p => !sA.isDone p := by
  obtain ⟨events, s', hsearch, hreads⟩ := hA.search.append_entries hw hB.search
  obtain ⟨hevents, -⟩ := h.search.unique hsearch
  rw [Run.reads, hevents, hreads]
  rfl

theorem Finishes.explored (hw : w.host.ResolvesCleanly) {A : List Path}
    (h : (w.entering A).Finishes run s) : w.Explored run.reads s :=
  h.search.explored hw isClean_of_mem_startsOf

theorem Finishes.isClean_keys (hw : w.host.ResolvesAllCleanly) {A : List Path}
    (h : (w.entering A).Finishes run s) : ∀ p ∈ s.imports.keys, p.IsClean :=
  h.search.isClean_keys hw (by simp [PathMap.keys])

/-- What two walks read, the walk from both lists of entries reads. -/
theorem mem_reads_append (hw : w.host.ResolvesCleanly) {A B : List Path}
    (h : (w.entering (A ++ B)).Finishes run s) (hA : (w.entering A).Finishes runA sA)
    (hB : (w.entering B).Finishes runB sB) (p : Path) :
    p ∈ run.reads ↔ p ∈ runA.reads ∨ p ∈ runB.reads := by
  rw [reads_append hw h hA hB, List.mem_append, List.mem_filter]
  constructor
  · exact Or.imp_right And.left
  · rintro (hp | hp)
    · exact Or.inl hp
    · by_cases hpA : p ∈ runA.reads
      · exact Or.inl hpA
      · have hclean := (hB.explored hw).isClean hp
        rw [← (hA.explored hw).isDone_iff hclean] at hpA
        exact Or.inr ⟨hp, by simpa using hpA⟩

theorem stats_append (hw : w.host.ResolvesCleanly) {A B : List Path}
    (h : (w.entering (A ++ B)).Finishes run s) (hA : (w.entering A).Finishes runA sA)
    (hB : (w.entering B).Finishes runB sB) :
    s.stats = sA.stats ++ ((w.failures runB.reads).filter fun f => !sA.unparsed.has f.1).map
      (fun f => failureLine f.1 f.2) := by
  have hexploredA := hA.explored hw
  calc s.stats = w.failureLines run.reads := (h.explored hw).consistent.stats
    _ = w.failureLines runA.reads
          ++ w.failureLines (runB.reads.filter fun p => !sA.isDone p) := by
        rw [reads_append hw h hA hB, failureLines_append]
    _ = _ := by
        rw [← hexploredA.consistent.stats, failureLines,
          hexploredA.failures_filter_isDone (hB.explored hw)]

theorem succeeds_congr (hw : w.host.ResolvesCleanly) {A B : List Path}
    (hAB : ∀ p, p ∈ w.startsOf A ↔ p ∈ w.startsOf B) :
    (w.entering A).Succeeds ↔ (w.entering B).Succeeds := by
  rw [succeeds_entering_iff, succeeds_entering_iff]
  constructor
  · rintro ⟨events, s, h⟩
    exact h.exists_search hw fun f => (hAB f).mpr
  · rintro ⟨events, s, h⟩
    exact h.exists_search hw fun f => (hAB f).mp

theorem mem_reads_congr (hw : w.host.ResolvesCleanly) {A B : List Path}
    (hAB : ∀ p, p ∈ w.startsOf A ↔ p ∈ w.startsOf B) (hA : (w.entering A).Finishes runA sA)
    (hB : (w.entering B).Finishes runB sB) (p : Path) : p ∈ runA.reads ↔ p ∈ runB.reads := by
  constructor
  · exact hB.search.reads_subset hw hA.search (fun f => (hAB f).mp) p
  · exact hA.search.reads_subset hw hB.search (fun f => (hAB f).mpr) p

/-- **Entries compose.** A walk from `A ++ B` succeeds exactly when the walks from `A` and from `B`
succeed, and then its graph is the union of theirs. Its statistics are those of `A` and then those
lines of `B` whose files are not among the unparsed files of `A`. Entries that stand for the same
files give the same graph, up to the order of its statistics; and entries with one normal form
stand for the same file. -/
theorem walk_entries_compose (hw : w.host.ResolvesCleanly) :
    (∀ A B, ((w.entering (A ++ B)).Succeeds ↔
        (w.entering A).Succeeds ∧ (w.entering B).Succeeds) ∧
      ∀ run runA runB s sA sB, (w.entering (A ++ B)).Finishes run s →
        (w.entering A).Finishes runA sA → (w.entering B).Finishes runB sB →
        s.toGraph.Unites sA.toGraph sB.toGraph ∧
        sB.toGraph.stats = (w.failures runB.reads).map (fun f => failureLine f.1 f.2) ∧
        s.toGraph.stats = sA.toGraph.stats
          ++ ((w.failures runB.reads).filter fun f => !sA.unparsed.has f.1).map
            (fun f => failureLine f.1 f.2)) ∧
    (∀ A B, (∀ p, p ∈ w.startsOf A ↔ p ∈ w.startsOf B) →
      ((w.entering A).Succeeds ↔ (w.entering B).Succeeds) ∧
      ∀ runA runB sA sB, (w.entering A).Finishes runA sA → (w.entering B).Finishes runB sB →
        sA.toGraph.SameUpToOrder sB.toGraph ∧
        (w.host.ResolvesAllCleanly → sA.toGraph.imports = sB.toGraph.imports)) ∧
    ∀ p q : Path, p.clean = q.clean → p.absolutize w.cwd = q.absolutize w.cwd := by
  refine ⟨fun A B => ⟨succeeds_append_iff hw A B, ?_⟩, fun A B hAB => ⟨succeeds_congr hw hAB, ?_⟩,
    fun p q h => Path.absolutize_congr h w.cwd⟩
  · intro run runA runB s sA sB h hA hB
    have hB' := hB.explored hw
    refine ⟨?_, hB'.consistent.stats, stats_append hw h hA hB⟩
    exact (h.explored hw).unites (hA.explored hw) hB' (mem_reads_append hw h hA hB)
  · intro runA runB sA sB hA hB
    have hA' := hA.explored hw
    have hB' := hB.explored hw
    have hsame := hA'.sameUpToOrder hB' (mem_reads_congr hw hAB hA hB)
    refine ⟨hsame, fun hclean => ?_⟩
    exact PathMap.eq_of_isClean hA'.merged.imports.ascending hB'.merged.imports.ascending
      (hA.isClean_keys hclean) (hB.isClean_keys hclean) hsame.imports

/-- In the small project `c` does not parse. It is an entry and is imported from another one, and it
has one line in the statistics, in whatever order and spelling the entries come. -/
theorem walk_entries_compose_sample :
    ∃ run run' runA runB s s' sA sB,
      ((sample [] true).entering [⟨"c.js"⟩, ⟨"a.js"⟩]).Finishes run s ∧
      ((sample [] true).entering [⟨"./a.js"⟩, ⟨"c.js"⟩, ⟨"c.js"⟩]).Finishes run' s' ∧
      ((sample [] true).entering [⟨"c.js"⟩]).Finishes runA sA ∧
      ((sample [] true).entering [⟨"a.js"⟩]).Finishes runB sB ∧
      s.toGraph.Unites sA.toGraph sB.toGraph ∧
      sA.toGraph.stats = ["Failed to parse /src/c.js: unexpected token"] ∧
      sB.toGraph.stats = ["Failed to parse /src/c.js: unexpected token"] ∧
      s.toGraph.stats = ["Failed to parse /src/c.js: unexpected token"] ∧
      s.toGraph.SameUpToOrder s'.toGraph := by
  have hcompose := walk_entries_compose (w := sample [] true) Host.resolvesCleanly_sample
  obtain ⟨runA, sA, hA, hstatsA, hunparsed⟩ : ∃ run s,
      ((sample [] true).entering [⟨"c.js"⟩]).Finishes run s ∧
        s.toGraph.stats = ["Failed to parse /src/c.js: unexpected token"] ∧
        s.unparsed = [⟨"/src/c.js"⟩] := ⟨_, _, ⟨⟨1, rfl⟩, rfl⟩, rfl, rfl⟩
  obtain ⟨runB, sB, hB, hstatsB, hreadsB⟩ : ∃ run s,
      ((sample [] true).entering [⟨"a.js"⟩]).Finishes run s ∧
        s.toGraph.stats = ["Failed to parse /src/c.js: unexpected token"] ∧
        run.reads = [⟨"/src/a.js"⟩, ⟨"/src/b.js"⟩, ⟨"/src/c.js"⟩] :=
    ⟨_, _, ⟨⟨3, rfl⟩, rfl⟩, rfl, rfl⟩
  obtain ⟨hsucceeds, hgraph⟩ := hcompose.1 [⟨"c.js"⟩] [⟨"a.js"⟩]
  obtain ⟨run, s, h⟩ := hsucceeds.mpr ⟨⟨runA, sA, hA⟩, runB, sB, hB⟩
  obtain ⟨hunites, -, hstats⟩ := hgraph run runA runB s sA sB h hA hB
  have hstarts : ∀ p, p ∈ (sample [] true).startsOf [⟨"c.js"⟩, ⟨"a.js"⟩] ↔
      p ∈ (sample [] true).startsOf [⟨"./a.js"⟩, ⟨"c.js"⟩, ⟨"c.js"⟩] := by
    have hfiles : (sample [] true).startsOf [⟨"c.js"⟩, ⟨"a.js"⟩]
        = [⟨"/src/c.js"⟩, ⟨"/src/a.js"⟩] := by decide
    have hfiles' : (sample [] true).startsOf [⟨"./a.js"⟩, ⟨"c.js"⟩, ⟨"c.js"⟩]
        = [⟨"/src/a.js"⟩, ⟨"/src/c.js"⟩, ⟨"/src/c.js"⟩] := by decide
    rw [hfiles, hfiles']
    simp [or_comm]
  obtain ⟨hsucceeds', hsame⟩ := hcompose.2.1 _ _ hstarts
  obtain ⟨run', s', h'⟩ := hsucceeds'.mp ⟨run, s, h⟩
  have hnone : ((sample [] true).failures runB.reads).filter
      (fun f => !sA.unparsed.has f.1) = [] := by
    rw [hreadsB, hunparsed]
    decide
  rw [hnone, hstatsA] at hstats
  exact ⟨run, run', runA, runB, s, s', sA, sB, h, h', hA, hB, hunites, hstatsA, hstatsB, hstats,
    (hsame run run' s s' h h').1⟩

end Walker

end ModuleGraph
