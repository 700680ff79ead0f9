import ModuleGraph.Proofs.Glob.Reading

set_option autoImplicit false

/-! # How deeply globs are nested

Only groups of alternatives nest the regular expression of a glob further than its items do by
themselves, so a glob without groups is never too deep (`IsFlat.isTooDeep`). A set of globs has a
fault exactly when one of them is too deep (`setFault?_eq_none_iff`). A glob of nested groups is
read level by level (`parse_nested`), and is too deep from the limit on (`isTooDeep_nested`).
-/

namespace ModuleGraph

open Regex in
theorem Regex.depthAll_append (rs ss : List Regex) :
    depthAll (rs ++ ss) = max (depthAll rs) (depthAll ss) := by
  induction rs with
  | nil => simp [depthAll]
  | cons r rs ih => rw [List.cons_append, depthAll, depthAll, ih, Nat.max_assoc]

theorem Regex.depthAll_units (us : Units) : Regex.depthAll (us.map .unit) = 0 := by
  induction us with
  | nil => rfl
  | cons u us ih => rw [List.map_cons, depthAll, ih, depth, Nat.max_self]

namespace Glob

open Regex

/-! ## Globs without groups -/

/-- A glob without any group of alternatives. -/
def IsFlat (glob : Glob) : Prop := ∀ branches, .alternates branches ∉ glob

theorem depthAll_regexes_le {token : GlobToken} (h : ∀ branches, token ≠ .alternates branches) :
    depthAll (regexes token) ≤ 4 := by
  cases token with
  | literal c => simp [regexes, depthAll_units]
  | oneOf negated ranges =>
      simp only [regexes, depthAll, depth]
      split <;> decide
  | alternates branches => exact absurd rfl (h branches)
  | any => decide
  | star => decide
  | leading => decide
  | trailing => decide
  | between => decide

theorem IsFlat.depthAll_le {glob : Glob} (h : glob.IsFlat) : depthAll (regexesAll glob) ≤ 4 := by
  induction glob with
  | nil => decide
  | cons token glob ih =>
      have htoken : ∀ branches, token ≠ .alternates branches := by
        rintro branches rfl
        exact h branches List.mem_cons_self
      have hrest : IsFlat glob := fun branches hmem => h branches (List.mem_cons_of_mem _ hmem)
      rw [regexesAll, depthAll_append]
      exact Nat.max_le.mpr ⟨depthAll_regexes_le htoken, ih hrest⟩

/-- **A glob without groups is not too deep.** -/
theorem IsFlat.isTooDeep {glob : Glob} (h : glob.IsFlat) : glob.isTooDeep = false := by
  have hdepth : depthAll glob.regexesOf ≤ 4 := by
    unfold regexesOf
    split
    · decide
    · exact h.depthAll_le
  rw [Glob.isTooDeep, depthLimit, decide_eq_false_iff_not]
  omega

theorem IsFlat.append {front back : Glob} (hfront : front.IsFlat) (hback : back.IsFlat) :
    IsFlat (front ++ back) := by
  intro branches hmem
  rcases List.mem_append.mp hmem with h | h
  · exact hfront branches h
  · exact hback branches h

theorem IsFlat.cons {token : GlobToken} {glob : Glob}
    (htoken : ∀ branches, token ≠ .alternates branches) (h : glob.IsFlat) : IsFlat (token :: glob) := by
  intro branches hmem
  rcases List.mem_cons.mp hmem with rfl | hmem
  · exact htoken branches rfl
  · exact h branches hmem

/-- A glob with one item for each character, where no item is a group. -/
theorem isFlat_map {item : Char → GlobToken} (h : ∀ c branches, item c ≠ .alternates branches)
    (cs : List Char) : IsFlat (cs.map item) := by
  intro branches hmem
  obtain ⟨c, -, hc⟩ := List.mem_map.mp hmem
  exact h c branches hc

theorem isFlat_map_token (cs : List Char) : IsFlat (cs.map token) :=
  isFlat_map (fun c branches => by unfold token; split <;> simp) cs

theorem isFlat_itemsOf (afterStars : Bool) (segments : List (List Char)) :
    IsFlat (itemsOf afterStars segments) := by
  induction segments generalizing afterStars with
  | nil => cases afterStars <;> simp [itemsOf, IsFlat]
  | cons q qs ih =>
      by_cases hq : q = stars
      · rw [hq, itemsOf_stars]
        exact ih true
      · rw [itemsOf_of_ne hq]
        refine .cons ?_ ((isFlat_map_token q).append (ih false))
        cases afterStars <;> simp [slashItem]

theorem isFlat_of_all_isLiteral {glob : Glob} (h : glob.all isLiteral = true) : glob.IsFlat := by
  intro branches hmem
  cases List.all_eq_true.mp h _ hmem

/-- A glob that needs no regular expression is flat. -/
theorem isFlat_of_isSimple {glob : Glob} (h : glob.isSimple = true) : glob.IsFlat := by
  unfold isSimple at h
  split at h
  · rename_i rest
    refine .cons (by simp) (.cons (by simp) (.cons (by simp) fun branches hmem => ?_))
    cases List.all_eq_true.mp h _ hmem
  · rename_i rest _
    exact .cons (by simp) (isFlat_of_all_isLiteral (Bool.and_eq_true_iff.mp h).2)
  · have hreverse : IsFlat glob.reverse := by
      split at h
      · rename_i rest hrest
        rw [hrest]
        exact .cons (by simp) (isFlat_of_all_isLiteral h)
      · exact isFlat_of_all_isLiteral (Bool.and_eq_true_iff.mp h).2
    exact fun branches hmem => hreverse branches (List.mem_reverse.mpr hmem)

/-! ## Sets of globs -/

/-- **A set of globs has no fault exactly when none of its globs is too deep.** -/
theorem setFault?_eq_none_iff {globs : List Glob} :
    setFault? globs = none ↔ ∀ glob ∈ globs, glob.isTooDeep = false := by
  unfold setFault?
  dsimp only
  constructor
  · intro h glob hglob
    -- What is not compiled has no groups, and every other glob is in one of the two sets.
    by_cases hsimple : glob.isSimple = true
    · exact (isFlat_of_isSimple hsimple).isTooDeep
    · split at h
      · cases h
      · rename_i hextensions
        rw [Option.map_eq_none_iff, List.findIdx?_eq_none_iff] at h
        rw [List.find?_eq_none] at hextensions
        by_cases hextension : glob.hasExtension = true
        · exact Bool.eq_false_iff.mpr (hextensions glob (by simp [hglob, hsimple, hextension]))
        · exact h glob (by simp [hglob, hsimple, hextension])
  · intro h
    have hnone : ∀ (kept : Glob → Bool) glob,
        glob ∈ (globs.filter fun glob => !glob.isSimple).filter kept → glob.isTooDeep = false :=
      fun kept glob hmem => h glob (List.mem_filter.mp (List.mem_filter.mp hmem).1).1
    have hextensions : ((globs.filter fun glob => !glob.isSimple).filter hasExtension).find?
        isTooDeep = none :=
      List.find?_eq_none.mpr fun glob hmem => Bool.eq_false_iff.mp (hnone _ glob hmem)
    rw [hextensions, Option.map_eq_none_iff, List.findIdx?_eq_none_iff]
    exact hnone _

/-! ## Nested groups -/

/-- A letter inside of groups, each with one branch. -/
def nested : Nat → List Char
  | 0 => ['a']
  | n + 1 => '\x7b' :: (nested n ++ ['\x7d'])

def nestedItem : Nat → GlobToken
  | 0 => .literal 'a'
  | n + 1 => .alternates [[nestedItem n]]

/-- Groups are read from the outside to the inside and back. -/
theorem parseFrom_nested (n : Nat) {fuel : Nat} {rest : List Char}
    (hfuel : (nested n ++ rest).length < fuel) (before : Option Char) (items : List GlobToken)
    (groups : List OpenGroup) :
    ∃ fuel' before', rest.length < fuel' ∧
      parseFrom fuel .strict before items groups (nested n ++ rest)
        = parseFrom fuel' .strict before' (nestedItem n :: items) groups rest := by
  induction n generalizing fuel rest before items groups with
  | zero =>
      obtain ⟨fuel, rfl⟩ : ∃ k, fuel = k + 1 := ⟨fuel - 1, by omega⟩
      exact ⟨fuel, some 'a', by simpa [nested] using hfuel, by cases groups <;> rfl⟩
  | succ n ih =>
      obtain ⟨fuel, rfl⟩ : ∃ k, fuel = k + 1 := ⟨fuel - 1, by omega⟩
      have htext : nested (n + 1) ++ rest = '\x7b' :: (nested n ++ '\x7d' :: rest) := by
        simp [nested]
      rw [htext, List.length_cons] at hfuel
      -- The items before the group wait in it, and come back when it is closed.
      obtain ⟨inner, before', hinner, hparse⟩ :=
        ih (by omega : (nested n ++ '\x7d' :: rest).length < fuel) (some '\x7b') []
          (⟨[], items⟩ :: groups)
      obtain ⟨inner, rfl⟩ : ∃ k, inner = k + 1 := ⟨inner - 1, by omega⟩
      refine ⟨inner, some '\x7d', by simpa using hinner, ?_⟩
      calc parseFrom (fuel + 1) .strict before items groups (nested (n + 1) ++ rest)
        _ = parseFrom fuel .strict (some '\x7b') [] (⟨[], items⟩ :: groups)
              (nested n ++ '\x7d' :: rest) := by
          rw [htext]
          rfl
        _ = parseFrom (inner + 1) .strict before' [nestedItem n] (⟨[], items⟩ :: groups)
              ('\x7d' :: rest) := hparse
        _ = parseFrom inner .strict (some '\x7d') (nestedItem (n + 1) :: items) groups rest := rfl

/-- A star and a letter inside of groups, as a pattern. -/
def nestedPattern (n : Nat) : String := String.ofList ('*' :: nested n)

theorem parse_nestedPattern (n : Nat) : parse (nestedPattern n) = .ok [.star, nestedItem n] := by
  have hstar : (nested n).head? ≠ some '*' := by cases n <;> simp [nested]
  have hlength : (nested n ++ []).length < (nested n).length + 1 := by simp
  obtain ⟨fuel, before, hfuel, hparse⟩ := parseFrom_nested n hlength (some '*') [.star] []
  obtain ⟨fuel, rfl⟩ : ∃ k, fuel = k + 1 := ⟨fuel - 1, by omega⟩
  rw [List.append_nil] at hparse
  unfold parse nestedPattern
  rw [String.toList_ofList]
  dsimp only [List.length_cons]
  rw [parseFrom_star hstar, hparse]
  rfl

theorem regexes_nestedItem (n : Nat) : ∃ r, regexes (nestedItem n) = [r] ∧ depth r = n := by
  induction n with
  | zero => exact ⟨.unit 97, rfl, rfl⟩
  | succ n ih =>
      obtain ⟨r, hr, hdepth⟩ := ih
      refine ⟨.group r, ?_, by rw [depth, hdepth]⟩
      simp [nestedItem, regexes, regexesAny, regexesAll, hr, inSequence, inChoice]

/-- **Nested groups are too deep from the limit on.** -/
theorem isTooDeep_nested (n : Nat) :
    isTooDeep [.star, nestedItem n] = true ↔ depthLimit ≤ n := by
  obtain ⟨r, hr, hdepth⟩ := regexes_nestedItem n
  have hdepth : depthAll (regexesOf [.star, nestedItem n]) = max 2 n := by
    simp [regexesOf, regexesAll, regexes, hr, depthAll, depth, notSlash, hdepth]
  rw [isTooDeep, hdepth, decide_eq_true_iff, depthLimit]
  omega

/-- Behind globs with an extension, which are compiled one by one, a glob without one is the first
of those that are compiled together. -/
theorem setFault?_concat {globs : List Glob} {deep : Glob} (hdeep : deep.isTooDeep = true)
    (hextension : deep.hasExtension = false)
    (h : ∀ glob ∈ globs, glob.hasExtension = true ∧ glob.isTooDeep = false) :
    setFault? (globs ++ [deep]) = some (.notCompiled none (tooDeepMessage 0)) := by
  have hsimple : deep.isSimple = false := by
    rw [Bool.eq_false_iff]
    intro hsimple
    rw [(isFlat_of_isSimple hsimple).isTooDeep] at hdeep
    cases hdeep
  have hcompiled : (globs ++ [deep]).filter (fun glob => !glob.isSimple)
      = globs.filter (fun glob => !glob.isSimple) ++ [deep] := by
    rw [List.filter_append, List.filter_cons_of_pos (by simp [hsimple]), List.filter_nil]
  have hmem : ∀ glob ∈ globs.filter (fun glob => !glob.isSimple),
      glob.hasExtension = true ∧ glob.isTooDeep = false :=
    fun glob hglob => h glob (List.mem_filter.mp hglob).1
  unfold setFault?
  dsimp only
  rw [hcompiled]
  generalize globs.filter (fun glob => !glob.isSimple) = compiled at hmem
  have halone : (compiled ++ [deep]).filter hasExtension = compiled := by
    rw [List.filter_append, List.filter_cons_of_neg (by simp [hextension]), List.filter_nil,
      List.append_nil, List.filter_eq_self]
    exact fun glob hglob => (hmem glob hglob).1
  have htogether : (compiled ++ [deep]).filter (fun glob => !glob.hasExtension) = [deep] := by
    rw [List.filter_append, List.filter_cons_of_pos (by simp [hextension]), List.filter_nil,
      List.filter_eq_nil_iff.mpr fun glob hglob => by simp [(hmem glob hglob).1]]
    rfl
  have hfind : compiled.find? isTooDeep = none :=
    List.find?_eq_none.mpr fun glob hglob => Bool.eq_false_iff.mp (hmem glob hglob).2
  rw [halone, htogether, hfind, List.findIdx?_cons, hdeep]
  rfl

theorem hasExtension_nested {n : Nat} (h : depthLimit ≤ n) :
    hasExtension [.star, nestedItem n] = false := by
  cases n with
  | zero => exact absurd h (by decide)
  | succ n => rfl

end Glob

end ModuleGraph
