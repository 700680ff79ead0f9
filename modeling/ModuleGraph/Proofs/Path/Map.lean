import ModuleGraph.Path.Map
import ModuleGraph.Proofs.Path.Order

set_option autoImplicit false

/-! # Maps and sets of paths hold what was put into them

Sets and the keys of maps are strictly ascending (`Ascending`), and every operation keeps
them so. In an ascending map a look-up after a change sees the change at the changed path and
the old value elsewhere (`PathMap.get?_alter`).
-/

namespace ModuleGraph

/-- Strictly ascending in path order; in particular no path is listed under two spellings. -/
def Ascending (ps : List Path) : Prop := ps.Pairwise fun p q => p.compare q = .lt

namespace Ascending

variable {ps qs : List Path}

theorem nodup (h : Ascending ps) : ps.Nodup := by
  refine h.imp fun {p q} hlt heq => ?_
  subst heq
  have hsame := Path.not_same_of_compare_lt hlt
  rw [Path.same_refl] at hsame
  cases hsame

/-- An ascending list is known by its paths. -/
theorem eq_of_mem_iff (hp : Ascending ps) (hq : Ascending qs) (h : ∀ p, p ∈ ps ↔ p ∈ qs) :
    ps = qs := by
  have hperm : ps.Perm qs := (List.perm_ext_iff_of_nodup hp.nodup hq.nodup).mpr h
  refine hperm.eq_of_pairwise (fun a b _ _ hab hba => ?_) hp hq
  have hswap := Std.OrientedCmp.gt_of_lt hba
  rw [hab] at hswap
  cases hswap

end Ascending

/-! ## Sets -/

namespace PathSet

theorem has_iff (s : PathSet) (p : Path) : s.has p = true ↔ ∃ q ∈ s, q.same p = true := by
  simp [has]

theorem has_congr (s : PathSet) {p q : Path} (h : p.same q = true) : s.has p = s.has q := by
  rw [Path.same_iff] at h
  simp [has, Path.same, h]

/-- A path that is new to a set is added once, and nothing else changes. -/
theorem insert_perm {s : PathSet} {p : Path} (h : s.has p = false) :
    (s.insert p).Perm (p :: s) := by
  induction s with
  | nil => exact .refl _
  | cons r rest ih =>
      have hr : p.compare r ≠ .eq := by
        rw [Ne, Path.compare_eq_iff, Path.same_comm]
        simp_all [has]
      have hrest : PathSet.has rest p = false := by simp_all [has]
      rw [insert]
      split
      · exact .refl _
      · contradiction
      · exact ((ih hrest).cons r).trans (.swap p r rest)

/-- A path that is new to a set is added as it is spelled. -/
theorem mem_insert_of_not_has {s : PathSet} {p : Path} (h : s.has p = false) (q : Path) :
    q ∈ s.insert p ↔ q = p ∨ q ∈ s := by
  rw [(insert_perm h).mem_iff, List.mem_cons]

theorem mem_insert_subset (s : PathSet) (p : Path) {q : Path} (h : q ∈ s.insert p) :
    q = p ∨ q ∈ s := by
  induction s with
  | nil => simpa [insert] using h
  | cons r rest ih =>
      rw [insert] at h
      split at h
      · simpa using h
      · exact Or.inr h
      · rcases List.mem_cons.mp h with rfl | h
        · exact Or.inr List.mem_cons_self
        · exact (ih h).imp_right (List.mem_cons_of_mem _)

theorem ascending_insert {s : PathSet} (h : Ascending s) (p : Path) :
    Ascending (s.insert p) := by
  induction s with
  | nil => simp [insert, Ascending]
  | cons r rest ih =>
      have hr := List.pairwise_cons.mp h
      rw [insert]
      split
      · rename_i hlt
        refine List.pairwise_cons.mpr ⟨fun q hq => ?_, h⟩
        rcases List.mem_cons.mp hq with rfl | hq
        · exact hlt
        · exact Std.TransCmp.lt_trans hlt (hr.1 q hq)
      · exact h
      · rename_i hgt
        refine List.pairwise_cons.mpr ⟨fun q hq => ?_, ih hr.2⟩
        rcases mem_insert_subset rest p hq with rfl | hq
        · exact Std.OrientedCmp.lt_of_gt hgt
        · exact hr.1 q hq

theorem has_insert (s : PathSet) (p q : Path) : (s.insert p).has q = (p.same q || s.has q) := by
  induction s with
  | nil => simp [insert, has]
  | cons r rest ih =>
      rw [insert]
      split
      · simp [has]
      · rename_i heq
        rw [Path.compare_eq_iff, Path.same_iff] at heq
        simp [has, Path.same, heq]
      · rw [show ∀ t : PathSet, has (r :: t) q = (r.same q || has t q) from fun _ => rfl, ih,
          show has (r :: rest) q = (r.same q || has rest q) from rfl, Bool.or_left_comm]

end PathSet

/-! ## Maps -/

namespace PathMap

variable {α : Type}

def keys (m : PathMap α) : PathSet := m.map (·.1)

/-- A change at a path adds the path to the keys, in the same place as in a set. -/
theorem keys_alter (m : PathMap α) (p : Path) (f : Option α → α) :
    (m.alter p f).keys = m.keys.insert p := by
  induction m with
  | nil => rfl
  | cons entry rest ih =>
      obtain ⟨r, a⟩ := entry
      have hkeys : keys ((r, a) :: rest) = r :: keys rest := rfl
      rw [alter, hkeys, PathSet.insert]
      cases p.compare r with
      | lt => rfl
      | eq => rfl
      | gt => exact congrArg (r :: ·) ih

theorem keys_insert (m : PathMap α) (p : Path) (a : α) :
    (m.insert p a).keys = m.keys.insert p := keys_alter m p _

/-- An entry of a map after one value was set has this value, or it is an old one. -/
theorem mem_insert_subset {m : PathMap α} {p : Path} {a : α} {entry : Path × α}
    (h : entry ∈ m.insert p a) : entry.2 = a ∨ entry ∈ m := by
  unfold insert at h
  induction m with
  | nil =>
      rw [List.mem_singleton.mp h]
      exact Or.inl rfl
  | cons first rest ih =>
      obtain ⟨q, b⟩ := first
      rw [alter] at h
      split at h
      · rcases List.mem_cons.mp h with rfl | hold
        · exact Or.inl rfl
        · exact Or.inr hold
      · rcases List.mem_cons.mp h with rfl | hold
        · exact Or.inl rfl
        · exact Or.inr (List.mem_cons_of_mem _ hold)
      · rcases List.mem_cons.mp h with rfl | hrest
        · exact Or.inr List.mem_cons_self
        · exact (ih hrest).imp_right (List.mem_cons_of_mem _)

theorem get?_cons (r : Path) (a : α) (rest : PathMap α) (q : Path) :
    get? ((r, a) :: rest) q = if r.same q then some a else get? rest q := by
  rw [get?, List.find?_cons]
  cases r.same q <;> rfl

theorem get?_eq_none_iff (m : PathMap α) (p : Path) : m.get? p = none ↔ m.keys.has p = false := by
  induction m with
  | nil => simp [get?, keys, PathSet.has]
  | cons entry rest ih =>
      obtain ⟨r, a⟩ := entry
      have hhas : (keys ((r, a) :: rest)).has p = (r.same p || (keys rest).has p) := rfl
      rw [get?_cons, hhas]
      cases hr : r.same p with
      | true => simp
      | false => simpa using ih

/-- A path below all keys has no value. -/
theorem get?_eq_none_of_lt {m : PathMap α} {p : Path} (h : ∀ k ∈ m.keys, p.compare k = .lt) :
    m.get? p = none := by
  rw [get?_eq_none_iff, ← Bool.not_eq_true, PathSet.has_iff]
  rintro ⟨k, hk, hsame⟩
  rw [Path.same_comm, Path.not_same_of_compare_lt (h k hk)] at hsame
  cases hsame

/-- **A look-up after a change.** -/
theorem get?_alter {m : PathMap α} (h : Ascending m.keys) (p : Path) (f : Option α → α)
    (q : Path) : (m.alter p f).get? q = if p.same q then some (f (m.get? p)) else m.get? q := by
  induction m with
  | nil => rw [alter, get?_cons]; rfl
  | cons entry rest ih =>
      obtain ⟨r, a⟩ := entry
      have hr := List.pairwise_cons.mp h
      rw [alter]
      cases hc : p.compare r with
      | lt =>
          have hnone : get? ((r, a) :: rest) p = none := by
            refine get?_eq_none_of_lt fun k hk => ?_
            rcases List.mem_cons.mp hk with rfl | hk
            · exact hc
            · exact Std.TransCmp.lt_trans hc (hr.1 k hk)
          rw [get?_cons, hnone]
      | eq =>
          have hsame : p.components = r.components := by
            rw [← Path.same_iff, ← Path.compare_eq_iff, hc]
          have hq : r.same q = p.same q := by simp [Path.same, hsame]
          have hp : r.same p = true := by simp [hsame]
          rw [get?_cons, get?_cons, get?_cons, hq, if_pos hp]
          split <;> rfl
      | gt =>
          have hrp : r.same p = false :=
            Path.not_same_of_compare_lt (Std.OrientedCmp.lt_of_gt hc)
          rw [get?_cons, get?_cons, get?_cons, hrp, ih hr.2]
          cases hrq : r.same q with
          | false => simp
          | true =>
              have hpq : p.same q = false := by
                rw [← Bool.not_eq_true, Path.same_iff] at hrp ⊢
                rw [Path.same_iff] at hrq
                rw [← hrq]
                exact fun h => hrp h.symm
              simp [hpq]

theorem get?_insert {m : PathMap α} (h : Ascending m.keys) (p : Path) (a : α) (q : Path) :
    (m.insert p a).get? q = if p.same q then some a else m.get? q := get?_alter h p _ q

theorem get?_congr (m : PathMap α) {p q : Path} (h : p.same q = true) : m.get? p = m.get? q := by
  rw [Path.same_iff] at h
  simp [get?, Path.same, h]

theorem get?_map {β : Type} (m : PathMap α) (f : α → β) (p : Path) :
    get? (m.map fun entry => (entry.1, f entry.2)) p = (m.get? p).map f := by
  induction m with
  | nil => rfl
  | cons entry rest ih =>
      obtain ⟨r, a⟩ := entry
      rw [List.map_cons, get?_cons, get?_cons, ih]
      split <;> rfl

/-- Leaving out other paths does not change what is at a path. -/
theorem get?_filter {m : PathMap α} {p : Path} (keep : Path → Bool)
    (h : ∀ k ∈ m.keys, k.same p = true → keep k = true) :
    get? (m.filter fun entry => keep entry.1) p = m.get? p := by
  induction m with
  | nil => rfl
  | cons entry rest ih =>
      obtain ⟨r, a⟩ := entry
      have hrest := ih fun k hk => h k (List.mem_cons_of_mem _ hk)
      cases hsame : r.same p with
      | true =>
          have hkeep : keep r = true := h r List.mem_cons_self hsame
          rw [List.filter_cons, if_pos hkeep, get?_cons, get?_cons, if_pos hsame, if_pos hsame]
      | false =>
          rw [get?_cons, hsame, List.filter_cons]
          split
          · rw [get?_cons, hsame]
            exact hrest
          · exact hrest

/-- Two maps with the same keys and the same values are equal. -/
theorem ext {m m' : PathMap α} (hkeys : m.keys = m'.keys) (h : Ascending m.keys)
    (hget : ∀ p ∈ m.keys, m.get? p = m'.get? p) : m = m' := by
  induction m generalizing m' with
  | nil => exact (List.map_eq_nil_iff.mp hkeys.symm).symm
  | cons entry rest ih =>
      obtain ⟨r, a⟩ := entry
      cases m' with
      | nil => cases hkeys
      | cons entry' rest' =>
          obtain ⟨r', a'⟩ := entry'
          obtain ⟨rfl, hrest⟩ : r = r' ∧ keys rest = keys rest' := List.cons.inj hkeys
          have hr := List.pairwise_cons.mp h
          have ha : a = a' := by
            have hhead := hget r List.mem_cons_self
            simpa [get?_cons] using hhead
          have htail : rest = rest' := by
            refine ih hrest hr.2 fun p hp => ?_
            have hp' := hget p (List.mem_cons_of_mem _ hp)
            rwa [get?_cons, get?_cons, Path.not_same_of_compare_lt (hr.1 p hp)] at hp'
          rw [ha, htail]

end PathMap

end ModuleGraph
