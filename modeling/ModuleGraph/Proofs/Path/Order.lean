import ModuleGraph.Path.Basic

set_option autoImplicit false

/-! # The order of paths

`Component.compare` is a linear order, and so is its lexicographic extension to lists of
components. `Path.compare` is therefore a linear order up to spelling: it answers `.eq` for
two spellings of one path (`Path.compare_eq_iff`) and for nothing else.
-/

namespace ModuleGraph

namespace Component

def label : Component → String
  | name s => s
  | _ => ""

/-- Components are ordered by rank first and by label second. -/
theorem compare_eq_compareLex :
    Component.compare = compareLex (compareOn rank) (compareOn label) := by
  funext a b
  cases a <;> cases b <;> rfl

theorem eq_of_rank_eq_of_label_eq {a b : Component} (hr : a.rank = b.rank)
    (hl : a.label = b.label) : a = b := by
  cases a <;> cases b <;> simp_all [rank, label]

instance : Std.TransCmp Component.compare := by
  rw [compare_eq_compareLex]
  infer_instance

instance : Std.LawfulEqCmp Component.compare where
  eq_of_compare {a b} h := by
    rw [compare_eq_compareLex, compareLex_eq_eq] at h
    exact eq_of_rank_eq_of_label_eq (Std.LawfulEqOrd.eq_of_compare h.1)
      (Std.LawfulEqOrd.eq_of_compare h.2)

end Component

namespace Path

/-- The order of component lists is the lexicographic one. -/
theorem compareComponents_eq_compareLex (as bs : List Component) :
    compareComponents as bs = List.compareLex Component.compare as bs := by
  induction as generalizing bs with
  | nil => cases bs <;> rfl
  | cons a as ih =>
      cases bs with
      | nil => rfl
      | cons b bs => rw [List.compareLex_cons_cons, compareComponents, ih]

theorem compare_eq_compareLex (p q : Path) :
    p.compare q = List.compareLex Component.compare p.components q.components :=
  compareComponents_eq_compareLex _ _

instance : Std.OrientedCmp Path.compare where
  eq_swap {p q} := by
    rw [compare_eq_compareLex, compare_eq_compareLex]
    exact Std.OrientedCmp.eq_swap

instance : Std.TransCmp Path.compare where
  isLE_trans {p q r} hpq hqr := by
    rw [compare_eq_compareLex] at hpq hqr ⊢
    exact Std.TransCmp.isLE_trans hpq hqr

/-! ## Spellings -/

/-- `same` is equality of components. -/
@[simp] theorem same_iff (p q : Path) : p.same q = true ↔ p.components = q.components := by
  simp [same]

theorem same_refl (p : Path) : p.same p = true := by simp

theorem same_comm (p q : Path) : p.same q = q.same p := by
  rw [Bool.eq_iff_iff, same_iff, same_iff]
  exact eq_comm

/-- Two spellings of one path are the only paths that compare as equal. -/
theorem compare_eq_iff (p q : Path) : p.compare q = .eq ↔ p.same q = true := by
  rw [compare_eq_compareLex, same_iff]
  exact Std.LawfulEqCmp.compare_eq_iff_eq

theorem not_same_of_compare_lt {p q : Path} (h : p.compare q = .lt) : p.same q = false := by
  rw [← Bool.not_eq_true, ← compare_eq_iff, h]
  simp

end Path

end ModuleGraph
