import Mathlib.Data.List.Nodup
import ModuleGraph.Options
import ModuleGraph.Proofs.Names

set_option autoImplicit false

/-! # Tables in order of their keys

A table lists its entries in order of their keys, and no key twice. Writing a key changes what is
there under it and nothing else (`lookup_setKey`), so after many writes each key has the value
that was written last (`lookup_setKeys`). A table is known by its look-ups (`eq_of_lookup_eq`).
-/

namespace ModuleGraph

variable {α : Type}

theorem lookup_cons_ite (key : String) (entry : String × α) (rest : List (String × α)) :
    (entry :: rest).lookup key = if key = entry.1 then some entry.2 else rest.lookup key := by
  rw [List.lookup_cons]
  by_cases hkey : key = entry.1
  · rw [if_pos hkey, beq_iff_eq.mpr hkey]
  · rw [if_neg hkey, beq_eq_false_iff_ne.mpr hkey]

theorem lookup_setKey (key : String) (value : α) (table : List (String × α)) (k : String) :
    (setKey key value table).lookup k = if k = key then some value else table.lookup k := by
  induction table with
  | nil => rw [setKey, lookup_cons_ite]
  | cons entry rest ih =>
      obtain ⟨k', v⟩ := entry
      rw [setKey]
      split
      · rw [lookup_cons_ite]
      · split
        · rename_i heq
          subst heq
          rw [lookup_cons_ite, lookup_cons_ite]
          by_cases hk : k = key <;> simp only [hk, if_true, if_false]
        · rename_i hne
          rw [lookup_cons_ite, lookup_cons_ite, ih]
          by_cases hk : k = k'
          · subst hk
            simp only [if_true, if_neg (Ne.symm hne)]
          · simp only [if_neg hk]

theorem mem_setKey {key : String} {value : α} {entry : String × α}
    {table : List (String × α)} (h : entry ∈ setKey key value table) :
    entry = (key, value) ∨ entry ∈ table := by
  induction table with
  | nil => exact Or.inl (List.mem_singleton.mp h)
  | cons first rest ih =>
      obtain ⟨k, v⟩ := first
      rw [setKey] at h
      split at h
      · rcases List.mem_cons.mp h with rfl | h
        · exact Or.inl rfl
        · exact Or.inr h
      · split at h
        · rename_i hkey
          subst hkey
          rcases List.mem_cons.mp h with rfl | h
          · exact Or.inl rfl
          · exact Or.inr (List.mem_cons_of_mem _ h)
        · rcases List.mem_cons.mp h with rfl | h
          · exact Or.inr List.mem_cons_self
          · exact (ih h).imp_right (List.mem_cons_of_mem _)

/-- What stands in a table was written into it, or stood there before. -/
theorem mem_setKeys {entry : String × α} {entries table : List (String × α)}
    (h : entry ∈ setKeys entries table) : entry ∈ entries ∨ entry ∈ table := by
  induction entries generalizing table with
  | nil => exact Or.inr h
  | cons first rest ih =>
      rcases ih h with hrest | htable
      · exact Or.inl (List.mem_cons_of_mem _ hrest)
      · rcases mem_setKey htable with rfl | htable
        · exact Or.inl List.mem_cons_self
        · exact Or.inr htable

theorem map_fst_setKey (key : String) (value : α) (table : List (String × α)) :
    (setKey key value table).map Prod.fst = insertName key (table.map Prod.fst) := by
  induction table with
  | nil => rfl
  | cons entry rest ih =>
      obtain ⟨k, v⟩ := entry
      rw [setKey, List.map_cons, insertName]
      split
      · rfl
      · split
        · rfl
        · rw [List.map_cons, ih]

theorem map_fst_setKeys (entries table : List (String × α)) :
    (setKeys entries table).map Prod.fst
      = insertNames (entries.map Prod.fst) (table.map Prod.fst) := by
  induction entries generalizing table with
  | nil => rfl
  | cons entry rest ih =>
      have hstep : setKeys (entry :: rest) table = setKeys rest (setKey entry.1 entry.2 table) :=
        rfl
      rw [hstep, ih, map_fst_setKey]
      rfl

/-- The value that the last entry with a key gives it. -/
def lastOf (key : String) (entries : List (String × α)) : Option α :=
  entries.reverse.lookup key

theorem lastOf_append (key : String) (front back : List (String × α)) :
    lastOf key (front ++ back) = (lastOf key back).or (lastOf key front) := by
  rw [lastOf, List.reverse_append, List.lookup_append]
  rfl

theorem lastOf_cons (key : String) (entry : String × α) (rest : List (String × α)) :
    lastOf key (entry :: rest)
      = (lastOf key rest).or (if key = entry.1 then some entry.2 else none) := by
  rw [← List.singleton_append, lastOf_append]
  exact congrArg _ (lookup_cons_ite key entry [])

/-- **Written over.** A table has a key with the value that was written last. -/
theorem lookup_setKeys (key : String) (entries table : List (String × α)) :
    (setKeys entries table).lookup key = (lastOf key entries).or (table.lookup key) := by
  induction entries generalizing table with
  | nil => rfl
  | cons entry rest ih =>
      have hstep : setKeys (entry :: rest) table = setKeys rest (setKey entry.1 entry.2 table) :=
        rfl
      rw [hstep, ih, lookup_setKey, lastOf_cons, Option.or_assoc]
      by_cases hkey : key = entry.1 <;> simp [hkey]

/-- Where no key is listed twice, a look-up finds every entry. -/
theorem lookup_eq_some_iff_mem {table : List (String × α)} (hkeys : (table.map Prod.fst).Nodup)
    (key : String) (value : α) : table.lookup key = some value ↔ (key, value) ∈ table := by
  induction table with
  | nil => simp
  | cons entry rest ih =>
      rw [List.map_cons, List.nodup_cons] at hkeys
      rw [lookup_cons_ite, List.mem_cons]
      by_cases hkey : key = entry.1
      · subst hkey
        have hnew : (entry.1, value) ∉ rest :=
          fun hmem => hkeys.1 (List.mem_map.mpr ⟨_, hmem, rfl⟩)
        simp [hnew, Prod.ext_iff, eq_comm]
      · have hhead : (key, value) ≠ entry := fun heq => hkey (congrArg Prod.fst heq)
        simp [hkey, hhead, ih hkeys.2]

/-- A table is known by its look-ups. -/
theorem eq_of_lookup_eq {table table' : List (String × α)}
    (hsorted : (table.map Prod.fst).Pairwise (· < ·))
    (hsorted' : (table'.map Prod.fst).Pairwise (· < ·))
    (h : ∀ key, table.lookup key = table'.lookup key) : table = table' := by
  have hkeys : ∀ {t : List (String × α)}, (t.map Prod.fst).Pairwise (· < ·) →
      (t.map Prod.fst).Nodup := fun ht => ht.imp fun hlt => ne_of_lt hlt
  have hmem : ∀ entry, entry ∈ table ↔ entry ∈ table' := by
    rintro ⟨key, value⟩
    rw [← lookup_eq_some_iff_mem (hkeys hsorted), ← lookup_eq_some_iff_mem (hkeys hsorted'), h]
  -- The same entries in ascending order can be listed in one way only.
  have hperm : table.Perm table' :=
    (List.perm_ext_iff_of_nodup (List.Nodup.of_map _ (hkeys hsorted))
      (List.Nodup.of_map _ (hkeys hsorted'))).mpr hmem
  refine hperm.eq_of_pairwise (fun a b _ _ hab hba => ?_) (List.pairwise_map.mp hsorted)
    (List.pairwise_map.mp hsorted')
  exact absurd hab (lt_asymm hba)

/-- Entries that end alike for every key make one table. -/
theorem setKeys_eq_iff (entries entries' : List (String × α)) :
    setKeys entries [] = setKeys entries' [] ↔
      ∀ key, lastOf key entries = lastOf key entries' := by
  have hlookup : ∀ (es : List (String × α)) key, (setKeys es []).lookup key = lastOf key es :=
    fun es key => by rw [lookup_setKeys, List.lookup_nil, Option.or_none]
  have hsorted : ∀ es : List (String × α), ((setKeys es []).map Prod.fst).Pairwise (· < ·) := by
    intro es
    rw [map_fst_setKeys]
    exact pairwise_insertNames _ .nil
  constructor
  · intro heq key
    rw [← hlookup, heq, hlookup]
  · intro hlast
    refine eq_of_lookup_eq (hsorted entries) (hsorted entries') fun key => ?_
    rw [hlookup, hlookup, hlast]

end ModuleGraph
