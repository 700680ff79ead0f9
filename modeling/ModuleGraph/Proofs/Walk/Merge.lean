import ModuleGraph.Proofs.Names
import ModuleGraph.Proofs.Walk.Closure

set_option autoImplicit false

/-! # The graph of a walk is the union of what its files say

Imported names reach the graph through two layers: a file groups its names by specifier, and
the state groups them by target. `IsUnion m taken` says that a map holds, at each path, exactly
the names of a relation `taken`, sorted and without repetition; adding the names of one
specifier adds one pair to the relation (`IsUnion.addImport`). Exported names are kept per
file, with their repetitions. Both are invariants of the state (`Walker.Merged`), and so the
graph of every successful walk is known exactly (`graph_eq_union`).
-/

namespace ModuleGraph

/-! ## Unions of names -/

/-- At each path the map holds the names that `taken` relates to the path, ascending, and it
has no other paths. -/
structure IsUnion (m : PathMap (List String)) (taken : Path → List String → Prop) : Prop where
  ascending : Ascending m.keys
  has_iff : ∀ p, m.keys.has p = true ↔ ∃ names, taken p names
  pairwise : ∀ p names, m.get? p = some names → names.Pairwise (· < ·)
  mem_iff : ∀ p names, m.get? p = some names →
    ∀ name, name ∈ names ↔ ∃ part, taken p part ∧ name ∈ part

theorem IsUnion.empty : IsUnion [] fun _ _ => False :=
  ⟨List.Pairwise.nil, by simp [PathMap.keys, PathSet.has], by simp [PathMap.get?],
    by simp [PathMap.get?]⟩

theorem IsUnion.congr {m : PathMap (List String)} {taken taken' : Path → List String → Prop}
    (h : IsUnion m taken) (heq : ∀ p names, taken p names ↔ taken' p names) :
    IsUnion m taken' := by
  have : taken = taken' := by
    funext p names
    exact propext (heq p names)
  rwa [← this]

/-- What is at a path after the names of one more target were added. -/
theorem get?_addImport {m : PathMap (List String)} (h : Ascending m.keys) (q : Path)
    (names : List String) (p : Path) :
    (WalkState.addImport m (q, names)).get? p
      = if q.same p then some (insertNames names ((m.get? p).getD [])) else m.get? p := by
  rw [WalkState.addImport, PathMap.get?_alter h]
  by_cases hq : q.same p = true
  · rw [if_pos hq, if_pos hq, PathMap.get?_congr m hq]
  · rw [if_neg hq, if_neg hq]

theorem IsUnion.mem_getD {m : PathMap (List String)} {taken : Path → List String → Prop}
    (h : IsUnion m taken) (p : Path) (name : String) :
    name ∈ (m.get? p).getD [] ↔ ∃ part, taken p part ∧ name ∈ part := by
  cases hp : m.get? p with
  | some names => exact h.mem_iff p names hp name
  | none =>
      have hnone : ¬ ∃ names, taken p names := by
        rw [← h.has_iff, (PathMap.get?_eq_none_iff m p).mp hp]
        simp
      simp only [Option.getD_none, List.not_mem_nil, false_iff]
      rintro ⟨names, hnames, -⟩
      exact hnone ⟨names, hnames⟩

theorem IsUnion.pairwise_getD {m : PathMap (List String)} {taken : Path → List String → Prop}
    (h : IsUnion m taken) (p : Path) : ((m.get? p).getD []).Pairwise (· < ·) := by
  cases hp : m.get? p with
  | some names => exact h.pairwise p names hp
  | none => exact List.Pairwise.nil

/-- The names of one more target. -/
theorem IsUnion.addImport {m : PathMap (List String)} {taken : Path → List String → Prop}
    (h : IsUnion m taken) (q : Path) (names : List String) :
    IsUnion (WalkState.addImport m (q, names))
      fun p part => taken p part ∨ q.same p = true ∧ part = names := by
  refine ⟨?_, ?_, ?_, ?_⟩
  · rw [WalkState.addImport, PathMap.keys_alter]
    exact PathSet.ascending_insert h.ascending q
  · intro p
    rw [WalkState.addImport, PathMap.keys_alter, PathSet.has_insert, Bool.or_eq_true, h.has_iff]
    constructor
    · rintro (hq | ⟨part, hpart⟩)
      · exact ⟨names, Or.inr ⟨hq, rfl⟩⟩
      · exact ⟨part, Or.inl hpart⟩
    · rintro ⟨part, hpart | ⟨hq, -⟩⟩
      · exact Or.inr ⟨part, hpart⟩
      · exact Or.inl hq
  · intro p part hp
    rw [get?_addImport h.ascending] at hp
    split at hp
    · cases hp
      exact pairwise_insertNames names (h.pairwise_getD p)
    · exact h.pairwise p part hp
  · intro p part hp name
    rw [get?_addImport h.ascending] at hp
    split at hp
    · rename_i hq
      cases hp
      rw [mem_insertNames, h.mem_getD]
      constructor
      · rintro (hname | ⟨other, hother, hname⟩)
        · exact ⟨names, Or.inr ⟨hq, rfl⟩, hname⟩
        · exact ⟨other, Or.inl hother, hname⟩
      · rintro ⟨other, hother | ⟨-, rfl⟩, hname⟩
        · exact Or.inr ⟨other, hother, hname⟩
        · exact Or.inl hname
    · rename_i hq
      rw [h.mem_iff p part hp]
      constructor
      · rintro ⟨other, hother, hname⟩
        exact ⟨other, Or.inl hother, hname⟩
      · rintro ⟨other, hother | ⟨hq', -⟩, hname⟩
        · exact ⟨other, hother, hname⟩
        · exact absurd hq' hq

/-- The names of all targets of a file. -/
theorem IsUnion.foldl_addImport {m : PathMap (List String)}
    {taken : Path → List String → Prop} (h : IsUnion m taken)
    (imports : List (Path × List String)) :
    IsUnion (imports.foldl WalkState.addImport m)
      fun p names => taken p names ∨ ∃ q, (q, names) ∈ imports ∧ q.same p = true := by
  induction imports generalizing m taken with
  | nil => exact h.congr (by simp)
  | cons entry rest ih =>
      obtain ⟨q, names⟩ := entry
      refine (ih (h.addImport q names)).congr fun p part => ?_
      rw [or_assoc]
      refine or_congr_right ?_
      constructor
      · rintro (⟨hq, rfl⟩ | ⟨r, hr, hsame⟩)
        · exact ⟨q, List.mem_cons_self, hq⟩
        · exact ⟨r, List.mem_cons_of_mem _ hr, hsame⟩
      · rintro ⟨r, hr, hsame⟩
        rcases List.mem_cons.mp hr with heq | hr
        · cases heq
          exact Or.inl ⟨hsame, rfl⟩
        · exact Or.inr ⟨r, hr, hsame⟩

/-! ## What files say -/

namespace Walker

variable {w : Walker} {s s' : WalkState} {f file p : Path} {files : List Path}
  {events : List Event}

/-- `w.TakesFrom file p names`: a specifier of the file leads to `p`, in some spelling, and
`names` are the names that the file takes from this specifier. -/
def TakesFrom (w : Walker) (file p : Path) (names : List String) : Prop :=
  ∃ facts specifier target, w.HasFacts file facts ∧ (specifier, names) ∈ facts.imports
    ∧ w.host.resolve specifier file.directory = .ok target ∧ target.same p = true

theorem takesFrom_iff {exports : List String} {imports : List (Path × List String)}
    (h : w.inspect file = .parsed exports imports) (names : List String) :
    w.TakesFrom file p names ↔ ∃ q, (q, names) ∈ imports ∧ q.same p = true := by
  obtain ⟨facts, hfacts, -, hres⟩ := inspect_eq_parsed_iff.mp h
  constructor
  · rintro ⟨facts', specifier, target, hfacts', hmem, hr, hsame⟩
    obtain rfl := hfacts.unique hfacts'
    exact ⟨target, (mem_of_resolveAll hres target names).mpr ⟨specifier, hmem, hr⟩, hsame⟩
  · rintro ⟨q, hq, hsame⟩
    obtain ⟨specifier, hmem, hr⟩ := (mem_of_resolveAll hres q names).mp hq
    exact ⟨facts, specifier, q, hfacts, hmem, hr, hsame⟩

/-- The state holds exactly what its loaded files say. -/
structure Merged (w : Walker) (s : WalkState) : Prop where
  ascending : Ascending s.loaded
  imports : IsUnion s.imports fun p names => ∃ f ∈ s.loaded, w.TakesFrom f p names
  keys_exports : s.exports.keys = s.loaded
  exports : ∀ f ∈ s.loaded, ∃ facts, w.HasFacts f facts ∧ s.exports.get? f = some facts.exports

theorem merged_empty (w : Walker) : w.Merged {} :=
  ⟨List.Pairwise.nil, IsUnion.empty.congr (by simp), rfl, by simp⟩

theorem Merged.merge {exports : List String} {imports : List (Path × List String)}
    (hs : w.Merged s) (hnew : ¬ w.Passes s file)
    (h : w.inspect file = .parsed exports imports) : w.Merged (s.merge file exports imports) := by
  have hmem := mem_loaded_merge hnew exports imports
  refine ⟨PathSet.ascending_insert hs.ascending file, ?_, ?_, ?_⟩
  · refine (hs.imports.foldl_addImport imports).congr fun p names => ?_
    rw [← takesFrom_iff h names]
    constructor
    · rintro (⟨f, hf, htakes⟩ | htakes)
      · exact ⟨f, (hmem f).mpr (Or.inr hf), htakes⟩
      · exact ⟨file, (hmem file).mpr (Or.inl rfl), htakes⟩
    · rintro ⟨f, hf, htakes⟩
      rcases (hmem f).mp hf with rfl | hf
      · exact Or.inr htakes
      · exact Or.inl ⟨f, hf, htakes⟩
  · show (s.exports.insert file exports).keys = s.loaded.insert file
    rw [PathMap.keys_insert, hs.keys_exports]
  · intro f hf
    have hget : (s.merge file exports imports).exports.get? f
        = if file.same f then some exports else s.exports.get? f := by
      refine PathMap.get?_insert ?_ file exports f
      rw [hs.keys_exports]
      exact hs.ascending
    rcases (hmem f).mp hf with rfl | hold
    · obtain ⟨facts, hfacts, rfl, -⟩ := inspect_eq_parsed_iff.mp h
      exact ⟨facts, hfacts, by rw [hget, if_pos (Path.same_refl f)]⟩
    · -- An old file is not the new one: the new one was not done.
      have hne : file.same f = false := by
        have hdone := not_isDone_of_not_passes hnew
        rw [← Bool.not_eq_true]
        intro hsame
        rw [Path.same_comm] at hsame
        rw [WalkState.isDone_iff.mpr ⟨f, Or.inl hold, hsame⟩] at hdone
        cases hdone
      obtain ⟨facts, hfacts, hexports⟩ := hs.exports f hold
      exact ⟨facts, hfacts, by rw [hget, hne]; exact hexports⟩

theorem Search.merged (h : w.Search s files events (.ok s')) (hs : w.Merged s) :
    w.Merged s' := by
  refine h.preserves_of_takes (fun s file s' hs hnew ht => ?_) hs
  cases ht with
  | failed _ => exact ⟨hs.ascending, hs.imports, hs.keys_exports, hs.exports⟩
  | loaded hloaded => exact hs.merge hnew hloaded

/-! ## The graph -/

/-- **The graph of a walk is the union of what its loaded files say.** A path is imported when
a specifier of a loaded file leads to it, and the names that are taken from it are the union of
the names of all such specifiers, each once, by their bytes. The exports of a loaded file are
its exported names, sorted by their bytes and with their repetitions. All paths come in path
order. -/
theorem graph_eq_union {budget : Nat} {run : Run} (hwalk : w.walk budget = some run)
    (hok : run.result = .ok s) :
    (∀ p, (∃ names, s.toGraph.imports.get? p = some names) ↔
      ∃ f ∈ s.toGraph.loadedFiles, ∃ names, w.TakesFrom f p names) ∧
    (∀ p names, s.toGraph.imports.get? p = some names →
      names.Pairwise (fun a b => utf8 a < utf8 b) ∧
      ∀ name, name ∈ names ↔
        ∃ f ∈ s.toGraph.loadedFiles, ∃ part, w.TakesFrom f p part ∧ name ∈ part) ∧
    s.toGraph.exports.keys = s.toGraph.loadedFiles ∧
    (∀ f ∈ s.toGraph.loadedFiles, ∃ facts names, w.HasFacts f facts
      ∧ s.toGraph.exports.get? f = some names ∧ names.Perm facts.exports
      ∧ names.Pairwise (fun a b => utf8 a ≤ utf8 b)) ∧
    Ascending s.toGraph.imports.keys ∧ Ascending s.toGraph.exports.keys
      ∧ Ascending s.toGraph.loadedFiles := by
  have hsearch := search_of_walk hwalk
  rw [hok] at hsearch
  have hs := hsearch.merged w.merged_empty
  have hkeys : s.toGraph.exports.keys = s.loaded := by
    rw [← hs.keys_exports]
    simp [WalkState.toGraph, PathMap.keys]
  refine ⟨fun p => ?_, fun p names hp => ⟨?_, fun name => ?_⟩, hkeys, fun f hf => ?_,
    hs.imports.ascending, ?_, hs.ascending⟩
  · rw [← Option.isSome_iff_exists, ← Option.ne_none_iff_isSome, Ne, PathMap.get?_eq_none_iff,
      Bool.not_eq_false]
    show s.imports.keys.has p = true ↔ _
    rw [hs.imports.has_iff]
    constructor
    · rintro ⟨names, f, hf, htakes⟩
      exact ⟨f, hf, names, htakes⟩
    · rintro ⟨f, hf, names, htakes⟩
      exact ⟨names, f, hf, htakes⟩
  · exact (hs.imports.pairwise p names hp).imp utf8_lt_of_lt
  · rw [hs.imports.mem_iff p names hp]
    constructor
    · rintro ⟨part, ⟨f, hf, htakes⟩, hname⟩
      exact ⟨f, hf, part, htakes, hname⟩
    · rintro ⟨f, hf, part, htakes, hname⟩
      exact ⟨part, ⟨f, hf, htakes⟩, hname⟩
  · obtain ⟨facts, hfacts, hexports⟩ := hs.exports f hf
    refine ⟨facts, sortNames facts.exports, hfacts, ?_, sortNames_perm _, ?_⟩
    · show PathMap.get? (s.exports.map fun entry => (entry.1, sortNames entry.2)) f = _
      rw [PathMap.get?_map, hexports]
      rfl
    · exact (pairwise_sortNames facts.exports).imp fun {a b} hab => (utf8_le_iff a b).mpr hab
  · rw [hkeys]
    exact hs.ascending

/-- In the small project `c` is imported by name from `b` and without names from `a`. -/
theorem graph_eq_union_sample : ∃ run s, (sample [⟨"a.js"⟩] true).walk 3 = some run ∧
    run.result = .ok s ∧ s.toGraph.imports.get? ⟨"/src/c.js"⟩ = some ["y"] ∧
    ∃ f ∈ s.toGraph.loadedFiles, ∃ part,
      (sample [⟨"a.js"⟩] true).TakesFrom f ⟨"/src/c.js"⟩ part ∧ "y" ∈ part := by
  obtain ⟨run, s, hwalk, hok, hnames⟩ : ∃ run s, (sample [⟨"a.js"⟩] true).walk 3 = some run ∧
      run.result = .ok s ∧ s.toGraph.imports.get? ⟨"/src/c.js"⟩ = some ["y"] :=
    ⟨_, _, rfl, rfl, rfl⟩
  have hunion := (graph_eq_union hwalk hok).2.1 ⟨"/src/c.js"⟩ ["y"] hnames
  exact ⟨run, s, hwalk, hok, hnames, (hunion.2 "y").mp List.mem_cons_self⟩

end Walker

end ModuleGraph
