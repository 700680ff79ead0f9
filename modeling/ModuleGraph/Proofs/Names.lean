import Mathlib.Data.String.Basic
import ModuleGraph.Path.Map

set_option autoImplicit false

/-! # Names in order

Sets of names are ascending lists (`insertNames`), and lists of names are sorted with their
repetitions (`sortNames`). Names are compared by their characters, which is the same as
comparing their bytes in UTF-8 (`utf8_lt_iff`).
-/

namespace ModuleGraph

/-! ## Characters and bytes -/

def utf8 (s : String) : List UInt8 := s.toByteArray.data.toList

theorem utf8_eq_flatMap (s : String) : utf8 s = s.toList.flatMap String.utf8EncodeChar := by
  rw [utf8, ← String.utf8Encode_toList, List.utf8Encode]
  simp

/-- One byte decides, or what follows it does. -/
theorem ofNat_cons_lt_cons {a b : Nat} {x y : List UInt8} (hb : b < 256)
    (h : a < b ∨ a = b ∧ x < y) : UInt8.ofNat a :: x < UInt8.ofNat b :: y := by
  rw [List.cons_lt_cons_iff]
  rcases h with h | ⟨rfl, h⟩
  · exact Or.inl ((UInt8.ofNat_lt_iff_lt (h.trans hb) hb).mpr h)
  · exact Or.inr ⟨rfl, h⟩

/-! The bytes after the first hold six bits each, so they compare like the numbers that they
spell to the base 64. -/

theorem one_sextet_lt {m n : Nat} (h : m % 64 < n % 64) (x y : List UInt8) :
    UInt8.ofNat (m % 64 + 128) :: x < UInt8.ofNat (n % 64 + 128) :: y :=
  ofNat_cons_lt_cons (by omega) (Or.inl (by omega))

theorem two_sextets_lt {m n : Nat} (h : m % 4096 < n % 4096) (x y : List UInt8) :
    UInt8.ofNat (m / 64 % 64 + 128) :: UInt8.ofNat (m % 64 + 128) :: x
      < UInt8.ofNat (n / 64 % 64 + 128) :: UInt8.ofNat (n % 64 + 128) :: y := by
  refine ofNat_cons_lt_cons (by omega) ?_
  by_cases hd : m / 64 % 64 < n / 64 % 64
  · exact Or.inl (by omega)
  · exact Or.inr ⟨by omega, one_sextet_lt (by omega) x y⟩

theorem three_sextets_lt {m n : Nat} (h : m % 262144 < n % 262144) (x y : List UInt8) :
    UInt8.ofNat (m / 4096 % 64 + 128) :: UInt8.ofNat (m / 64 % 64 + 128)
        :: UInt8.ofNat (m % 64 + 128) :: x
      < UInt8.ofNat (n / 4096 % 64 + 128) :: UInt8.ofNat (n / 64 % 64 + 128)
        :: UInt8.ofNat (n % 64 + 128) :: y := by
  refine ofNat_cons_lt_cons (by omega) ?_
  by_cases hd : m / 4096 % 64 < n / 4096 % 64
  · exact Or.inl (by omega)
  · exact Or.inr ⟨by omega, two_sextets_lt (by omega) x y⟩

/-- A smaller character has smaller bytes, whatever follows. -/
theorem utf8EncodeChar_append_lt {c d : Char} (h : c < d) (x y : List UInt8) :
    String.utf8EncodeChar c ++ x < String.utf8EncodeChar d ++ y := by
  have hv : c.val.toNat < d.val.toNat := h
  have hd : d.val.toNat < 1114112 := by
    have := d.valid
    simp only [UInt32.isValidChar, Nat.isValidChar] at this
    omega
  simp only [String.utf8EncodeChar]
  generalize c.val.toNat = m at *
  generalize d.val.toNat = n at *
  -- A longer encoding starts with a larger byte; at equal length the first bytes may agree.
  split_ifs with c1 d1 d2 d3 c2 d1 d2 d3 c3 d1 d2 d3 d1 d2 d3
  any_goals omega
  all_goals
    simp only [List.cons_append, List.nil_append]
    refine ofNat_cons_lt_cons (by omega) ?_
  · exact Or.inl hv
  · exact Or.inl (by omega)
  · exact Or.inl (by omega)
  · exact Or.inl (by omega)
  · by_cases he : m / 64 % 32 < n / 64 % 32
    · exact Or.inl (by omega)
    · exact Or.inr ⟨by omega, one_sextet_lt (by omega) x y⟩
  · exact Or.inl (by omega)
  · exact Or.inl (by omega)
  · by_cases he : m / 4096 % 16 < n / 4096 % 16
    · exact Or.inl (by omega)
    · exact Or.inr ⟨by omega, two_sextets_lt (by omega) x y⟩
  · exact Or.inl (by omega)
  · by_cases he : m / 262144 % 8 < n / 262144 % 8
    · exact Or.inl (by omega)
    · exact Or.inr ⟨by omega, three_sextets_lt (by omega) x y⟩

theorem flatMap_utf8EncodeChar_lt {cs ds : List Char} (h : cs < ds) :
    cs.flatMap String.utf8EncodeChar < ds.flatMap String.utf8EncodeChar := by
  induction cs generalizing ds with
  | nil =>
      cases ds with
      | nil => exact absurd h (by simp)
      | cons d ds =>
          rw [List.flatMap_nil]
          cases he : (d :: ds).flatMap String.utf8EncodeChar with
          | nil => simp at he
          | cons b bs => exact List.nil_lt_cons b bs
  | cons c cs ih =>
      cases ds with
      | nil => exact absurd h (by simp)
      | cons d ds =>
          rw [List.flatMap_cons, List.flatMap_cons]
          rcases List.cons_lt_cons_iff.mp h with hcd | ⟨rfl, htail⟩
          · exact utf8EncodeChar_append_lt hcd _ _
          · exact List.append_left_lt (ih htail)

theorem utf8_lt_of_lt {a b : String} (h : a < b) : utf8 a < utf8 b := by
  rw [utf8_eq_flatMap, utf8_eq_flatMap]
  exact flatMap_utf8EncodeChar_lt h

/-- **Names compare like their bytes.** -/
theorem utf8_lt_iff (a b : String) : utf8 a < utf8 b ↔ a < b := by
  refine ⟨fun h => ?_, utf8_lt_of_lt⟩
  rcases lt_trichotomy a b with hab | rfl | hba
  · exact hab
  · exact absurd h (List.lt_irrefl _)
  · exact absurd h (List.lt_asymm (utf8_lt_of_lt hba))

theorem utf8_le_iff (a b : String) : utf8 a ≤ utf8 b ↔ a ≤ b := by
  rw [← List.not_lt, utf8_lt_iff, not_lt]

/-! ## Sets of names -/

theorem mem_insertName (name n : String) (set : List String) :
    n ∈ insertName name set ↔ n = name ∨ n ∈ set := by
  induction set with
  | nil => simp [insertName]
  | cons m rest ih =>
      rw [insertName]
      split
      · exact List.mem_cons
      · split
        · rename_i heq
          subst heq
          simp
        · rw [List.mem_cons, ih, List.mem_cons]
          exact or_left_comm

theorem pairwise_insertName {set : List String} (name : String) (h : set.Pairwise (· < ·)) :
    (insertName name set).Pairwise (· < ·) := by
  induction set with
  | nil => simp [insertName]
  | cons m rest ih =>
      have hm := List.pairwise_cons.mp h
      rw [insertName]
      split
      · rename_i hlt
        refine List.pairwise_cons.mpr ⟨fun n hn => ?_, h⟩
        rcases List.mem_cons.mp hn with rfl | hn
        · exact hlt
        · exact lt_trans hlt (hm.1 n hn)
      · split
        · exact h
        · rename_i hlt hne
          refine List.pairwise_cons.mpr ⟨fun n hn => ?_, ih hm.2⟩
          rcases (mem_insertName name n rest).mp hn with rfl | hn
          · exact lt_of_le_of_ne (not_lt.mp hlt) (Ne.symm hne)
          · exact hm.1 n hn

theorem mem_insertNames (names : List String) (n : String) (set : List String) :
    n ∈ insertNames names set ↔ n ∈ names ∨ n ∈ set := by
  induction names generalizing set with
  | nil => simp [insertNames]
  | cons name rest ih =>
      have hstep : insertNames (name :: rest) set = insertNames rest (insertName name set) := rfl
      rw [hstep, ih, mem_insertName, List.mem_cons, or_left_comm, or_assoc]

theorem pairwise_insertNames (names : List String) {set : List String}
    (h : set.Pairwise (· < ·)) : (insertNames names set).Pairwise (· < ·) := by
  induction names generalizing set with
  | nil => exact h
  | cons name rest ih => exact ih (pairwise_insertName name h)

/-! ## Sorted names -/

theorem sortNames_perm (names : List String) : (sortNames names).Perm names :=
  List.mergeSort_perm names _

theorem pairwise_sortNames (names : List String) : (sortNames names).Pairwise (· ≤ ·) := by
  have htrans : ∀ a b c : String,
      decide (a ≤ b) = true → decide (b ≤ c) = true → decide (a ≤ c) = true := by
    intro a b c hab hbc
    rw [decide_eq_true_eq] at hab hbc ⊢
    exact le_trans hab hbc
  have htotal : ∀ a b : String, (decide (a ≤ b) || decide (b ≤ a)) = true := by
    intro a b
    simpa using le_total a b
  exact (List.pairwise_mergeSort htrans htotal names).imp of_decide_eq_true

end ModuleGraph
