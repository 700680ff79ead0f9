import Mathlib.Data.List.Basic
import Mathlib.Data.List.Flatten
import Mathlib.Data.List.Induction
import ModuleGraph.Proofs.Facts

set_option autoImplicit false

/-! # Imports grouped by specifier

Facts are put together from entries, each with a specifier and names that are taken from it. The
result has a closed form (`grouped_eq`): one entry for each specifier, in order of first mention,
with the names of all entries for this specifier, one after the other. So two lists of entries
that give the same names to every specifier are grouped alike exactly when they mention the
specifiers in the same order for the first time (`grouped_eq_grouped_iff`).
-/

namespace ModuleGraph

/-! ## What elements contribute -/

theorem filterMap_eq_flatMap {α β : Type} (f : α → Option β) (items : List α) :
    items.filterMap f = items.flatMap fun a => (f a).toList := by
  induction items with
  | nil => rfl
  | cons a rest ih => cases h : f a <;> simp [h, ih]

/-- Dropping elements changes a list of lists only if they are not empty. -/
theorem flatMap_filter_eq_iff {α β : Type} (keep : α → Bool) (f : α → List β) (items : List α) :
    (items.filter keep).flatMap f = items.flatMap f ↔
      ∀ a ∈ items, keep a = false → f a = [] := by
  induction items with
  | nil => simp
  | cons a rest ih =>
      rw [List.forall_mem_cons, ← ih]
      cases hkeep : keep a with
      | true => simp [List.filter_cons_of_pos hkeep]
      | false =>
          rw [List.filter_cons_of_neg (by simp [hkeep]), List.flatMap_cons]
          have hlength := ((List.filter_sublist (p := keep) (l := rest)).flatMap f).length_le
          constructor
          · intro heq
            have hnil : f a = [] := by
              rw [← List.length_eq_zero_iff]
              rw [heq, List.length_append] at hlength
              omega
            exact ⟨fun _ => hnil, by rw [heq, hnil, List.nil_append]⟩
          · rintro ⟨hnil, heq⟩
            rw [hnil rfl, heq, List.nil_append]

namespace Facts

/-! ## First mentions -/

theorem eraseDups_concat (keys : List String) (key : String) :
    (keys ++ [key]).eraseDups = if key ∈ keys then keys.eraseDups else keys.eraseDups ++ [key] := by
  rw [List.eraseDups_append]
  by_cases hkey : key ∈ keys
  · simp [hkey, List.removeAll]
  · simp [hkey, List.removeAll, List.eraseDups_cons]

theorem nodup_eraseDups (keys : List String) : keys.eraseDups.Nodup := by
  induction keys using List.reverseRecOn with
  | nil => exact List.nodup_nil
  | append_singleton keys key ih =>
      rw [eraseDups_concat]
      split
      · exact ih
      · rename_i hnew
        refine List.nodup_append.mpr ⟨ih, by simp, ?_⟩
        rintro a ha b hb rfl
        rw [List.mem_singleton.mp hb] at ha
        exact hnew (List.mem_eraseDups.mp ha)

/-! ## Names of one specifier -/

/-- The names that entries give to a specifier, one entry after the other. -/
def namesIn (specifier : String) (entries : List (String × List String)) : List String :=
  (entries.filter (·.1 = specifier)).flatMap (·.2)

theorem namesIn_append (specifier : String) (front back : List (String × List String)) :
    namesIn specifier (front ++ back) = namesIn specifier front ++ namesIn specifier back := by
  rw [namesIn, List.filter_append, List.flatMap_append]
  rfl

theorem namesIn_singleton (specifier : String) (entry : String × List String) :
    namesIn specifier [entry] = if entry.1 = specifier then entry.2 else [] := by
  by_cases h : entry.1 = specifier <;> simp [namesIn, h]

theorem namesIn_filterMap (specifier : String) {α : Type}
    (read? : α → Option (String × List String)) (items : List α) :
    namesIn specifier (items.filterMap read?)
      = items.flatMap fun a => namesIn specifier (read? a).toList := by
  rw [namesIn, filterMap_eq_flatMap, List.filter_flatMap, List.flatMap_assoc]
  rfl

theorem namesIn_of_not_mem {specifier : String} {entries : List (String × List String)}
    (h : specifier ∉ entries.map (·.1)) : namesIn specifier entries = [] := by
  rw [namesIn, List.filter_eq_nil_iff.mpr]
  · rfl
  · intro entry hentry hspecifier
    exact h (List.mem_map.mpr ⟨entry, hentry, by simpa using hspecifier⟩)

/-! ## Groups -/

/-- Entries put together by their specifiers. -/
def grouped (entries : List (String × List String)) : List (String × List String) :=
  entries.foldl (fun acc entry => appendTo entry.1 entry.2 acc) []

theorem imports_eq_grouped (statements : List Source.Statement) :
    (ofStatements statements).imports
      = grouped (statements.filterMap Source.Statement.import?) :=
  imports_ofStatements statements

/-- Statements that contribute the same exports and the same entries give the same facts. -/
theorem ofStatements_congr {statements statements' : List Source.Statement}
    (hexports : statements.flatMap Source.Statement.exports
      = statements'.flatMap Source.Statement.exports)
    (himports : statements.flatMap (·.import?.toList) = statements'.flatMap (·.import?.toList)) :
    ofStatements statements = ofStatements statements' := by
  rw [eq_iff, exports_ofStatements, exports_ofStatements, imports_eq_grouped, imports_eq_grouped,
    filterMap_eq_flatMap, filterMap_eq_flatMap, himports]
  exact ⟨hexports, rfl⟩

/-- Appending to the entry of one key, in a list that is made from its keys. -/
theorem appendTo_map {keys : List String} (hkeys : keys.Nodup) (names : String → List String)
    (key : String) (more : List String) :
    appendTo key more (keys.map fun k => (k, names k))
      = if key ∈ keys then keys.map fun k => (k, names k ++ if key = k then more else [])
        else keys.map (fun k => (k, names k)) ++ [(key, more)] := by
  induction keys with
  | nil => rfl
  | cons first rest ih =>
      rw [List.nodup_cons] at hkeys
      rw [List.map_cons, appendTo]
      by_cases hfirst : first = key
      · subst hfirst
        have hrest : rest.map (fun k => (k, names k ++ if first = k then more else []))
            = rest.map fun k => (k, names k) := by
          refine List.map_congr_left fun k hk => ?_
          have hne : first ≠ k := fun heq => hkeys.1 (heq ▸ hk)
          simp [hne]
        simp [hrest]
      · rw [if_neg hfirst, ih hkeys.2]
        by_cases hmem : key ∈ rest <;> simp [hmem, Ne.symm hfirst]

/-- **Grouping by specifier:** each specifier once, in order of first mention, with the names of
all of its entries. -/
theorem grouped_eq (entries : List (String × List String)) :
    grouped entries
      = (entries.map (·.1)).eraseDups.map fun k => (k, namesIn k entries) := by
  induction entries using List.reverseRecOn with
  | nil => rfl
  | append_singleton front entry ih =>
      have hstep : grouped (front ++ [entry]) = appendTo entry.1 entry.2 (grouped front) := by
        rw [grouped, List.foldl_append]
        rfl
      rw [hstep, ih, appendTo_map (nodup_eraseDups _), List.map_append, List.map_singleton,
        eraseDups_concat]
      simp only [List.mem_eraseDups, namesIn_append, namesIn_singleton]
      by_cases hmem : entry.1 ∈ front.map (·.1)
      · rw [if_pos hmem, if_pos hmem]
      · rw [if_neg hmem, if_neg hmem, List.map_append, List.map_singleton,
          namesIn_of_not_mem hmem, if_pos rfl, List.nil_append]
        -- No earlier key is the new one, so nothing is appended to it.
        refine congrArg (· ++ [entry]) (List.map_congr_left fun k hk => ?_)
        have hne : entry.1 ≠ k := fun heq => hmem (heq ▸ List.mem_eraseDups.mp hk)
        rw [if_neg hne, List.append_nil]

theorem map_fst_grouped (entries : List (String × List String)) :
    (grouped entries).map (·.1) = (entries.map (·.1)).eraseDups := by
  rw [grouped_eq, List.map_map]
  exact List.map_id _

/-- **What a group of entries is known by.** Entries that give the same names to every specifier
are grouped alike if and only if they first mention the specifiers in the same order. -/
theorem grouped_eq_grouped_iff {entries entries' : List (String × List String)}
    (h : ∀ specifier, namesIn specifier entries = namesIn specifier entries') :
    grouped entries = grouped entries' ↔
      (grouped entries).map (·.1) = (grouped entries').map (·.1) := by
  refine ⟨fun heq => heq ▸ rfl, fun hkeys => ?_⟩
  rw [map_fst_grouped, map_fst_grouped] at hkeys
  rw [grouped_eq, grouped_eq, hkeys]
  exact List.map_congr_left fun k _ => by rw [h k]

/-! ## The facts of a source -/

/-- The names that the facts list for a specifier. -/
def namesFrom (facts : Facts) (specifier : String) : List String :=
  (facts.imports.lookup specifier).getD []

theorem namesFrom_ofStatements (statements : List Source.Statement) (specifier : String) :
    (ofStatements statements).namesFrom specifier
      = namesIn specifier (statements.filterMap Source.Statement.import?) := by
  rw [namesFrom, imports_eq_grouped, grouped_eq]
  generalize statements.filterMap Source.Statement.import? = entries
  by_cases hmem : specifier ∈ entries.map (·.1)
  · rw [List.lookup_graph _ (List.mem_eraseDups.mpr hmem)]
    rfl
  · rw [namesIn_of_not_mem hmem, List.lookup_eq_none_iff.mpr]
    · rfl
    · rintro ⟨k, names⟩ hk
      obtain ⟨k', hk', heq⟩ := List.mem_map.mp hk
      cases heq
      rw [bne_iff_ne]
      rintro rfl
      exact hmem (List.mem_eraseDups.mp hk')

theorem specifiers_ofStatements (statements : List Source.Statement) :
    (ofStatements statements).specifiers
      = ((statements.filterMap Source.Statement.import?).map (·.1)).eraseDups := by
  rw [specifiers, imports_eq_grouped, map_fst_grouped]

/-- **The facts of a source list each specifier once.** -/
theorem nodup_specifiers_ofStatements (statements : List Source.Statement) :
    (ofStatements statements).specifiers.Nodup := by
  rw [specifiers_ofStatements]
  exact nodup_eraseDups _

theorem mem_specifiers_ofStatements (statements : List Source.Statement) (specifier : String) :
    specifier ∈ (ofStatements statements).specifiers ↔
      ∃ statement ∈ statements, ∃ names, statement.import? = some (specifier, names) := by
  rw [specifiers_ofStatements, List.mem_eraseDups, List.mem_map]
  constructor
  · rintro ⟨⟨k, names⟩, hmem, rfl⟩
    obtain ⟨statement, hstatement, himport⟩ := List.mem_filterMap.mp hmem
    exact ⟨statement, hstatement, names, himport⟩
  · rintro ⟨statement, hstatement, names, himport⟩
    exact ⟨(specifier, names), List.mem_filterMap.mpr ⟨statement, hstatement, himport⟩, rfl⟩

end Facts

end ModuleGraph
