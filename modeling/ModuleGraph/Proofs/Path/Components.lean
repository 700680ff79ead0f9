import ModuleGraph.Path.Basic

set_option autoImplicit false

/-! # Components of joined and rebuilt paths

The components of a text can be read off its pieces, and a slash between two texts separates
their pieces (`stepsOf_append_slash`). So joining appends components (`componentsOf_joinText`),
and a path that was written from a sensible list of components has just these
(`components_ofComponents`).
-/

namespace ModuleGraph

/-! ## Pieces -/

theorem splitSlash_ne_nil (cs : List Char) : splitSlash cs ≠ [] := by
  induction cs with
  | nil => simp [splitSlash]
  | cons c rest ih =>
      rw [splitSlash]
      split
      · simp
      · split <;> simp

/-- A slash separates the pieces before it from those after it. -/
theorem splitSlash_append_slash (xs ys : List Char) :
    splitSlash (xs ++ '/' :: ys) = splitSlash xs ++ splitSlash ys := by
  induction xs with
  | nil => simp [splitSlash]
  | cons c rest ih =>
      rw [List.cons_append, splitSlash, splitSlash, ih]
      by_cases hc : c = '/'
      · rw [if_pos hc, if_pos hc, List.cons_append]
      · rw [if_neg hc, if_neg hc]
        cases hs : splitSlash rest with
        | nil => exact absurd hs (splitSlash_ne_nil rest)
        | cons piece pieces => rfl

/-- A text without a separator that stands somewhere around the separator stands before or behind
it. -/
theorem infix_append_cons_iff {part : List Char} {c : Char} (hc : c ∉ part) (xs ys : List Char) :
    part <:+: xs ++ c :: ys ↔ part <:+: xs ∨ part <:+: ys := by
  have hstart : ∀ zs, part <+: zs ++ c :: ys ↔ part <+: zs := by
    refine fun zs => ⟨fun h => ?_, fun h => h.trans (List.prefix_append _ _)⟩
    rcases List.prefix_or_prefix_of_prefix h (List.prefix_append zs (c :: ys)) with hshort | hlong
    · exact hshort
    · obtain ⟨more, rfl⟩ := hlong
      rw [List.prefix_append_right_inj] at h
      cases more with
      | nil => simp
      | cons d more =>
          rw [List.cons_prefix_cons] at h
          simp [h.1] at hc
  induction xs with
  | nil =>
      have hempty := hstart []
      rw [List.nil_append, List.prefix_nil] at hempty
      rw [List.nil_append, List.infix_cons_iff, hempty, List.infix_nil]
  | cons x xs ih =>
      have hhere := hstart (x :: xs)
      rw [List.cons_append] at hhere
      rw [List.cons_append, List.infix_cons_iff, List.infix_cons_iff, hhere, or_assoc]
      exact or_congr_right ih

theorem splitSlash_of_not_mem {cs : List Char} (h : '/' ∉ cs) : splitSlash cs = [cs] := by
  induction cs with
  | nil => rfl
  | cons c rest ih =>
      rw [List.mem_cons, not_or] at h
      rw [splitSlash, if_neg (Ne.symm h.1), ih h.2]

theorem not_mem_of_mem_splitSlash {cs piece : List Char} (h : piece ∈ splitSlash cs) :
    '/' ∉ piece := by
  induction cs generalizing piece with
  | nil => simp_all [splitSlash]
  | cons c rest ih =>
      rw [splitSlash] at h
      split at h
      · rcases List.mem_cons.mp h with rfl | h
        · simp
        · exact ih h
      · rename_i hc
        cases hs : splitSlash rest with
        | nil => exact absurd hs (splitSlash_ne_nil rest)
        | cons first others =>
            rw [hs] at h ih
            rcases List.mem_cons.mp h with rfl | h
            · have := ih (List.mem_cons_self)
              simp_all [eq_comm]
            · exact ih (List.mem_cons_of_mem _ h)

/-! ## Steps -/

namespace Component

/-- A component that can stand anywhere in a path: `..` or a name as it is found between two
slashes. -/
def IsProper : Component → Prop
  | .up => True
  | .name s => s.toList ≠ [] ∧ '/' ∉ s.toList ∧ s.toList ≠ ['.'] ∧ s.toList ≠ ['.', '.']
  | .root | .here => False

instance : (c : Component) → Decidable c.IsProper
  | .up => inferInstanceAs (Decidable True)
  | .name _ => inferInstanceAs (Decidable (_ ∧ _ ∧ _ ∧ _))
  | .root | .here => inferInstanceAs (Decidable False)

theorem isProper_of_ofPiece? {piece : List Char} {c : Component} (hp : '/' ∉ piece)
    (h : ofPiece? piece = some c) : c.IsProper := by
  unfold ofPiece? at h
  split at h
  · cases h
  · split at h
    · cases h
      trivial
    · rename_i h1 h2
      cases h
      rw [not_or] at h1
      simp only [IsProper, String.toList_ofList]
      exact ⟨h1.1, hp, h1.2, h2⟩

theorem ofPiece?_text {c : Component} (h : c.IsProper) : ofPiece? c.text.toList = some c := by
  cases c with
  | root => exact h.elim
  | here => exact h.elim
  | up => rfl
  | name s =>
      obtain ⟨h1, -, h3, h4⟩ := h
      simp [ofPiece?, text, h1, h3, h4]

theorem slash_not_mem_text {c : Component} (h : c.IsProper) : '/' ∉ c.text.toList := by
  cases c with
  | root => exact h.elim
  | here => exact h.elim
  | up => simp [text]
  | name s => exact h.2.1

end Component

namespace Path

/-- The steps of a text that is read from some directory. -/
def stepsOf (cs : List Char) : List Component := (splitSlash cs).filterMap Component.ofPiece?

theorem stepsOf_append_slash (xs ys : List Char) :
    stepsOf (xs ++ '/' :: ys) = stepsOf xs ++ stepsOf ys := by
  rw [stepsOf, splitSlash_append_slash, List.filterMap_append]
  rfl

@[simp] theorem stepsOf_nil : stepsOf [] = [] := rfl

theorem isProper_of_mem_stepsOf {cs : List Char} {c : Component} (h : c ∈ stepsOf cs) :
    c.IsProper := by
  obtain ⟨piece, hmem, hc⟩ := List.mem_filterMap.mp h
  exact Component.isProper_of_ofPiece? (not_mem_of_mem_splitSlash hmem) hc

theorem stepsOf_text {c : Component} (h : c.IsProper) : stepsOf c.text.toList = [c] := by
  rw [stepsOf, splitSlash_of_not_mem (Component.slash_not_mem_text h), List.filterMap_cons,
    Component.ofPiece?_text h, List.filterMap_nil]

/-! ## Components -/

/-- The first component, where a root and a leading `.` count. -/
def leadOf : List Char → List Component
  | '/' :: _ => [.root]
  | cs => if (splitSlash cs).head? = some ['.'] then [.here] else []

theorem componentsOf_eq (cs : List Char) : componentsOf cs = leadOf cs ++ stepsOf cs := by
  cases cs with
  | nil => rfl
  | cons c rest =>
      by_cases hc : c = '/'
      · subst hc
        rfl
      · have hl : leadOf (c :: rest)
            = if (splitSlash (c :: rest)).head? = some ['.'] then [.here] else [] := by
          rw [leadOf]
          simpa using hc
        rw [hl, componentsOf]
        · cases hs : splitSlash (c :: rest) with
          | nil => exact absurd hs (splitSlash_ne_nil _)
          | cons piece pieces =>
              by_cases hp : piece = ['.']
              · subst hp
                simp [stepsOf, hs, Component.ofPiece?]
              · simp [stepsOf, hs, hp]
        · simpa using hc

/-- What follows a slash does not change the first component. -/
theorem leadOf_append_slash {xs : List Char} (ys : List Char) (h : xs ≠ []) :
    leadOf (xs ++ '/' :: ys) = leadOf xs := by
  cases xs with
  | nil => exact absurd rfl h
  | cons c rest =>
      by_cases hc : c = '/'
      · subst hc
        rfl
      · have hl : ∀ zs, leadOf (c :: zs)
            = if (splitSlash (c :: zs)).head? = some ['.'] then [.here] else [] := by
          intro zs
          rw [leadOf]
          simpa using hc
        rw [List.cons_append, hl, hl, ← List.cons_append, splitSlash_append_slash]
        cases hs : splitSlash (c :: rest) with
        | nil => exact absurd hs (splitSlash_ne_nil _)
        | cons piece pieces => rfl

theorem componentsOf_append_slash {xs : List Char} (ys : List Char) (h : xs ≠ []) :
    componentsOf (xs ++ '/' :: ys) = componentsOf xs ++ stepsOf ys := by
  rw [componentsOf_eq, componentsOf_eq, leadOf_append_slash ys h, stepsOf_append_slash,
    List.append_assoc]

/-- A relative step appends its components to what is there already. -/
theorem componentsOf_joinText {base step : List Char} (hb : base ≠ [])
    (hs : step.head? ≠ some '/') :
    componentsOf (joinText base step) = componentsOf base ++ stepsOf step := by
  have hj : joinText base step
      = if base = [] ∨ base.getLast? = some '/' then base ++ step else base ++ '/' :: step := by
    rw [joinText]
    rintro rest rfl
    exact hs rfl
  rw [hj]
  by_cases hl : base.getLast? = some '/'
  · obtain ⟨front, rfl⟩ := List.getLast?_eq_some_iff.mp hl
    rw [if_pos (Or.inr hl), List.append_assoc, List.singleton_append]
    by_cases hf : front = []
    · subst hf
      rw [List.nil_append, List.nil_append, componentsOf_eq, componentsOf_eq]
      rfl
    · rw [componentsOf_append_slash _ hf, componentsOf_append_slash _ hf, stepsOf_nil,
        List.append_nil]
  · rw [if_neg (by simp [hb, hl]), componentsOf_append_slash _ hb]

/-- Joining a relative path appends its steps. -/
theorem components_join {p q : Path} (hp : p.text.toList ≠ [])
    (hq : q.text.toList.head? ≠ some '/') :
    (p.join q).components = p.components ++ stepsOf q.text.toList := by
  rw [components, join, String.toList_ofList, componentsOf_joinText hp hq]
  rfl

/-- The root is the first component of absolute paths and of no others. -/
theorem isAbsolute_iff (p : Path) : p.isAbsolute = true ↔ p.components.head? = some .root := by
  rw [components, isAbsolute]
  cases hp : p.text.toList with
  | nil => simp [componentsOf, splitSlash, Component.ofPiece?]
  | cons c rest =>
      by_cases hc : c = '/'
      · subst hc
        simp [componentsOf]
      · have hroot : Component.root ∉ componentsOf (c :: rest) := by
          rw [componentsOf_eq, List.mem_append, not_or]
          refine ⟨?_, fun h => isProper_of_mem_stepsOf h⟩
          rw [leadOf]
          · split <;> simp
          · simpa using hc
        have hhead : (componentsOf (c :: rest)).head? ≠ some .root := fun h =>
          hroot (List.mem_of_mem_head? h)
        simp [hc, hhead]

/-! ## Rebuilt paths -/

/-- A list of components as a path can have it: only the first one can be a root or `.`. -/
def IsSensible : List Component → Prop
  | [] => True
  | c :: rest => (c.IsProper ∨ c = .root ∨ c = .here) ∧ ∀ d ∈ rest, d.IsProper

theorem isSensible_components (p : Path) : IsSensible p.components := by
  have hsteps : ∀ c ∈ stepsOf p.text.toList, c.IsProper := fun c => isProper_of_mem_stepsOf
  rw [components, componentsOf_eq]
  unfold leadOf
  split
  · exact ⟨Or.inr (Or.inl rfl), hsteps⟩
  · split
    · exact ⟨Or.inr (Or.inr rfl), hsteps⟩
    · rw [List.nil_append]
      cases hcs : stepsOf p.text.toList with
      | nil => trivial
      | cons c rest =>
          rw [hcs] at hsteps
          exact ⟨Or.inl (hsteps c List.mem_cons_self),
            fun d hd => hsteps d (List.mem_cons_of_mem _ hd)⟩

theorem joinText_nil_left (step : List Char) : joinText [] step = step := by
  unfold joinText
  split <;> simp

theorem joinText_ne_nil {base : List Char} (step : List Char) (h : base ≠ []) :
    joinText base step ≠ [] := by
  unfold joinText
  split
  · simp
  · split <;> simp [h]

theorem componentsOf_foldl_joinText {steps : List Component} (hs : ∀ c ∈ steps, c.IsProper)
    {base : List Char} (hb : base ≠ []) :
    componentsOf (steps.foldl (fun text c => joinText text c.text.toList) base)
      = componentsOf base ++ steps := by
  induction steps generalizing base with
  | nil => simp
  | cons c rest ih =>
      have hc : c.IsProper := hs c List.mem_cons_self
      have hslash : c.text.toList.head? ≠ some '/' := fun h =>
        Component.slash_not_mem_text hc (List.mem_of_mem_head? h)
      rw [List.foldl_cons, ih (fun d hd => hs d (List.mem_cons_of_mem _ hd)) (joinText_ne_nil _ hb),
        componentsOf_joinText hb hslash, stepsOf_text hc, List.append_assoc, List.singleton_append]

theorem componentsOf_text {c : Component} (h : c.IsProper ∨ c = .root ∨ c = .here) :
    componentsOf c.text.toList = [c] := by
  rcases h with hc | rfl | rfl
  · have hlead : leadOf c.text.toList = [] := by
      have hslash := Component.slash_not_mem_text hc
      have hpiece := Component.ofPiece?_text hc
      unfold leadOf
      split
      · simp_all
      · rw [splitSlash_of_not_mem hslash, if_neg]
        intro hdot
        simp only [List.head?_cons, Option.some.injEq] at hdot
        rw [hdot] at hpiece
        simp [Component.ofPiece?] at hpiece
    rw [componentsOf_eq, hlead, stepsOf_text hc, List.nil_append]
  · decide
  · decide

/-- A path that is written from a sensible list of components has these components. -/
theorem components_ofComponents {cs : List Component} (h : IsSensible cs) :
    (ofComponents cs).components = cs := by
  rw [components, ofComponents, String.toList_ofList]
  cases cs with
  | nil => decide
  | cons c rest =>
      obtain ⟨hc, hrest⟩ := h
      have hne : c.text.toList ≠ [] := by
        intro hnil
        have := componentsOf_text hc
        rw [hnil] at this
        exact absurd this (by simp [componentsOf, splitSlash, Component.ofPiece?])
      rw [List.foldl_cons, joinText_nil_left, componentsOf_foldl_joinText hrest hne,
        componentsOf_text hc, List.singleton_append]

end Path

end ModuleGraph
