import ModuleGraph.Proofs.Grouping

set_option autoImplicit false

/-! # Imports recorded step by step

Recording imports one after the other is a stable grouping. `Groups` says what the facts look like
after some steps: each specifier is listed once, at the place of its first step, with the names of
all of its steps in their order. There is one such list for given steps (`Groups.unique`), and at
every moment of a run it is the one that the facts hold (`addImports_groups`).
-/

namespace ModuleGraph.Facts

def addStep (facts : Facts) (step : String × List String) : Facts :=
  facts.addImports step.1 step.2

/-- The facts before the first step and after each of the steps. -/
def statesAfter (steps : List (String × List String)) : List Facts := steps.scanl addStep {}

/-- The facts list what some steps took, by specifier. -/
structure Groups (steps : List (String × List String)) (facts : Facts) : Prop where
  exports : facts.exports = []
  nodup : facts.specifiers.Nodup
  /-- A specifier is listed even if no step took a name from it. -/
  mem_iff : ∀ specifier, specifier ∈ facts.specifiers ↔ ∃ names, (specifier, names) ∈ steps
  /-- The order is that of the first steps. -/
  ordered : facts.specifiers.Pairwise fun s t =>
    (steps.map (·.1)).idxOf s < (steps.map (·.1)).idxOf t
  names : ∀ entry ∈ facts.imports, entry.2 = namesIn entry.1 steps

/-! ## The order of first mentions -/

theorem pairwise_eraseDups (keys : List String) :
    keys.eraseDups.Pairwise fun s t => keys.idxOf s < keys.idxOf t := by
  induction keys using List.reverseRecOn with
  | nil => exact .nil
  | append_singleton keys key ih =>
      -- A key behind all others leaves the places of the others as they are.
      have hold : keys.eraseDups.Pairwise fun s t =>
          (keys ++ [key]).idxOf s < (keys ++ [key]).idxOf t := by
        refine ih.imp_of_mem fun {s t} hs ht hlt => ?_
        rw [List.idxOf_append_of_mem (List.mem_eraseDups.mp hs),
          List.idxOf_append_of_mem (List.mem_eraseDups.mp ht)]
        exact hlt
      rw [eraseDups_concat]
      split
      · exact hold
      · rename_i hnew
        refine List.pairwise_append.mpr ⟨hold, List.pairwise_singleton _ _, fun s hs t ht => ?_⟩
        obtain rfl := List.mem_singleton.mp ht
        have hs' : s ∈ keys := List.mem_eraseDups.mp hs
        have hplace : keys.idxOf s < keys.length := List.idxOf_lt_length_of_mem hs'
        rw [List.idxOf_append_of_mem hs', List.idxOf_append_of_notMem hnew]
        omega

/-! ## Every state of a run -/

theorem exports_foldl_addStep (steps : List (String × List String)) (facts : Facts) :
    (steps.foldl addStep facts).exports = facts.exports := by
  induction steps generalizing facts with
  | nil => rfl
  | cons step rest ih =>
      rw [List.foldl_cons, ih]
      rfl

theorem imports_foldl_addStep (steps : List (String × List String)) (facts : Facts) :
    (steps.foldl addStep facts).imports
      = steps.foldl (fun acc entry => appendTo entry.1 entry.2 acc) facts.imports := by
  induction steps generalizing facts with
  | nil => rfl
  | cons step rest ih =>
      rw [List.foldl_cons, ih]
      rfl

/-- **After any steps the facts are grouped.** -/
theorem groups_foldl_addStep (steps : List (String × List String)) :
    Groups steps (steps.foldl addStep {}) := by
  have himports : (steps.foldl addStep {}).imports = grouped steps := imports_foldl_addStep steps {}
  have hspecifiers : (steps.foldl addStep {}).specifiers = (steps.map (·.1)).eraseDups := by
    rw [specifiers, himports, map_fst_grouped]
  constructor
  · exact exports_foldl_addStep steps {}
  · rw [hspecifiers]
    exact nodup_eraseDups _
  · intro specifier
    rw [hspecifiers, List.mem_eraseDups, List.mem_map]
    constructor
    · rintro ⟨⟨s, names⟩, hmem, rfl⟩
      exact ⟨names, hmem⟩
    · rintro ⟨names, hmem⟩
      exact ⟨(specifier, names), hmem, rfl⟩
  · rw [hspecifiers]
    exact pairwise_eraseDups _
  · intro entry hentry
    rw [himports, grouped_eq] at hentry
    obtain ⟨k, -, rfl⟩ := List.mem_map.mp hentry
    rfl

/-- Steps can be grouped in one way only. -/
theorem Groups.unique {steps : List (String × List String)} {facts facts' : Facts}
    (h : Groups steps facts) (h' : Groups steps facts') : facts = facts' := by
  have hperm : facts.specifiers.Perm facts'.specifiers :=
    (List.perm_ext_iff_of_nodup h.nodup h'.nodup).mpr fun s => by rw [h.mem_iff, h'.mem_iff]
  have hspecifiers : facts.specifiers = facts'.specifiers :=
    hperm.eq_of_pairwise (fun s t _ _ hst hts => by omega) h.ordered h'.ordered
  have hentries : ∀ {f : Facts}, Groups steps f →
      f.imports = f.specifiers.map fun s => (s, namesIn s steps) := by
    intro f hf
    calc f.imports
      _ = f.imports.map id := (List.map_id _).symm
      _ = f.imports.map fun entry => (entry.1, namesIn entry.1 steps) :=
          List.map_congr_left fun entry hentry => Prod.ext rfl (hf.names entry hentry)
      _ = f.specifiers.map fun s => (s, namesIn s steps) := by rw [specifiers, List.map_map]; rfl
  rw [eq_iff, h.exports, h'.exports, hentries h, hentries h', hspecifiers]
  exact ⟨rfl, rfl⟩

/-- **Recording imports is a stable grouping.** The facts after any steps list each specifier of
the steps once, in order of first mention, with the names of its steps one after the other. They
export nothing, and after each step they are what the steps up to it give; no other facts are. -/
theorem addImports_groups (steps : List (String × List String)) :
    Groups steps (steps.foldl addStep {}) ∧
    (statesAfter steps).length = steps.length + 1 ∧
    ∀ n ≤ steps.length, ∀ facts,
      (statesAfter steps)[n]? = some facts ↔ Groups (steps.take n) facts := by
  refine ⟨groups_foldl_addStep steps, List.length_scanl, fun n hn facts => ?_⟩
  have hstate : (statesAfter steps)[n]? = some ((steps.take n).foldl addStep {}) := by
    rw [statesAfter, List.getElem?_scanl, if_pos hn]
  rw [hstate, Option.some.injEq]
  constructor
  · rintro rfl
    exact groups_foldl_addStep _
  · intro hfacts
    exact (groups_foldl_addStep _).unique hfacts

/-- Steps that come back to a specifier, and one that takes no name. -/
def sampleSteps : List (String × List String) :=
  [("lodash", ["map"]), ("./a", []), ("lodash", ["filter", "map"])]

theorem addImports_groups_sample :
    2 ≤ sampleSteps.length ∧
    Groups (sampleSteps.take 2) { imports := [("lodash", ["map"]), ("./a", [])] } ∧
    Groups sampleSteps
      { imports := [("lodash", ["map", "filter", "map"]), ("./a", [])] } := by
  refine ⟨by decide, ?_, ?_⟩
  · exact ((addImports_groups sampleSteps).2.2 2 (by decide) _).mp (by decide)
  · exact ((addImports_groups sampleSteps).2.2 3 (by decide) _).mp (by decide)

end ModuleGraph.Facts
