import ModuleGraph.Path.Relative
import ModuleGraph.Proofs.Path.Components

set_option autoImplicit false

/-! # Library code, step by step

The library test writes the way from the importing file as a path and reads its components again.
All steps of such a way are proper ones, so nothing is lost on the way through the text, and the
test can be read off the steps themselves (`Path.isLibrary_iff`). In particular, a path that turns
off into a library directory above the importing file is library code, whatever follows
(`Path.isLibrary_of_turn`).
-/

namespace ModuleGraph

namespace Path

variable {target base importer : Path} {steps cs above rest below : List Component}
  {c : Component} {dirs dirs' : List String}

/-! ## Ways -/

theorem isProper_of_isStep (hcs : IsSensible cs) (hc : c ∈ cs) (hstep : isStep c = true) :
    c.IsProper := by
  cases cs with
  | nil => cases hc
  | cons d more =>
      obtain ⟨hd, hmore⟩ := hcs
      rcases List.mem_cons.mp hc with rfl | hc
      · rcases hd with hproper | rfl | rfl
        · exact hproper
        · cases hstep
        · cases hstep
      · exact hmore c hc

/-- The steps between two paths are proper. -/
theorem isProper_of_mem_steps (h : stepsBetween? target.components base.components = some steps)
    (hc : c ∈ steps) : c.IsProper := by
  unfold stepsBetween? at h
  split at h
  · cases h
    rcases List.mem_append.mp hc with hup | hdown
    · rw [List.eq_of_mem_replicate hup]
      trivial
    · obtain ⟨hmem, hstep⟩ := List.mem_filter.mp hdown
      exact isProper_of_isStep (isSensible_components target) (List.mem_of_mem_drop hmem) hstep
  · cases h

theorem isSensible_of_forall_isProper (h : ∀ c ∈ steps, c.IsProper) : IsSensible steps := by
  cases steps with
  | nil => trivial
  | cons c more =>
      exact ⟨Or.inl (h c List.mem_cons_self), fun d hd => h d (List.mem_cons_of_mem _ hd)⟩

/-- A way that was written can be read again. -/
theorem components_relativeTo? (target base : Path) :
    (target.relativeTo? base).map components
      = (stepsBetween? target.components base.components).map fun steps =>
          if steps = [] then [.here] else steps := by
  rw [relativeTo?, Option.map_map]
  refine Option.map_congr fun steps hsteps => ?_
  have hcomponents : (ofComponents steps).components = steps :=
    components_ofComponents (isSensible_of_forall_isProper fun c => isProper_of_mem_steps hsteps)
  by_cases hnil : steps = []
  · subst hnil
    decide
  · have htext : ¬ (ofComponents steps).text.isEmpty = true := by
      rw [String.isEmpty_iff]
      intro hempty
      rw [components, hempty] at hcomponents
      exact hnil hcomponents.symm
    have hway : (if (ofComponents steps).text.isEmpty then ⟨"."⟩ else ofComponents steps)
        = ofComponents steps := if_neg htext
    rw [Function.comp_apply, if_neg hnil, hway, hcomponents]

/-! ## Libraries -/

theorem entersAfterClimb_here (dirs : List String) : entersAfterClimb dirs [.here] = false := rfl

theorem entersAfterClimb_nil (dirs : List String) : entersAfterClimb dirs [] = false := rfl

/-- **The library test looks at the steps from the importing file.** -/
theorem isLibrary_iff :
    importer.isLibrary target dirs = true ↔
      target.isAbsolute = false ∨
        ∃ steps, stepsBetween? target.components importer.components = some steps
          ∧ entersAfterClimb dirs steps = true := by
  have hway := components_relativeTo? target importer
  unfold isLibrary
  cases target.isAbsolute with
  | false => simp
  | true =>
      cases hsteps : stepsBetween? target.components importer.components with
      | none =>
          rw [hsteps, Option.map_none, Option.map_eq_none_iff] at hway
          simp [hway]
      | some steps =>
          rw [hsteps, Option.map_some, Option.map_eq_some_iff] at hway
          obtain ⟨way, hrelative, hcomponents⟩ := hway
          by_cases hnil : steps = []
          · simp [hrelative, hcomponents, hnil, entersAfterClimb_here, entersAfterClimb_nil]
          · simp [hrelative, hcomponents, hnil]

theorem entersAfterClimb_mono (hsub : dirs ⊆ dirs') (h : entersAfterClimb dirs cs = true) :
    entersAfterClimb dirs' cs = true := by
  unfold entersAfterClimb at h ⊢
  rw [Bool.and_eq_true] at h ⊢
  refine ⟨h.1, ?_⟩
  have hname := h.2
  split at hname
  · rename_i s _ _
    have hs : s ∈ dirs := by simpa using hname
    simpa using hsub hs
  · cases hname

/-- With more library directories, more is library code. -/
theorem isLibrary_mono (hsub : dirs ⊆ dirs') (h : importer.isLibrary target dirs = true) :
    importer.isLibrary target dirs' = true := by
  rw [isLibrary_iff] at h ⊢
  refine h.imp_right ?_
  rintro ⟨steps, hsteps, henters⟩
  exact ⟨steps, hsteps, entersAfterClimb_mono hsub henters⟩

/-! ## Where two paths part -/

/-- `common` is the longest list that both lists start with. -/
structure IsCommonStart (common xs ys : List Component) : Prop where
  left : common <+: xs
  right : common <+: ys
  longest : ∀ other, other <+: xs → other <+: ys → other.length ≤ common.length

theorem isCommonStart_nil {xs ys : List Component}
    (h : ∀ c, xs.head? = some c → ys.head? ≠ some c) : IsCommonStart [] xs ys := by
  refine ⟨List.nil_prefix, List.nil_prefix, fun other hxs hys => ?_⟩
  cases other with
  | nil => exact Nat.le_refl 0
  | cons c more =>
      obtain ⟨xs', rfl⟩ := hxs
      obtain ⟨ys', rfl⟩ := hys
      exact absurd rfl (h c rfl)

theorem IsCommonStart.cons {common xs ys : List Component} (h : IsCommonStart common xs ys)
    (c : Component) : IsCommonStart (c :: common) (c :: xs) (c :: ys) := by
  refine ⟨List.cons_prefix_cons.mpr ⟨rfl, h.left⟩, List.cons_prefix_cons.mpr ⟨rfl, h.right⟩,
    fun other hxs hys => ?_⟩
  cases other with
  | nil => exact Nat.zero_le _
  | cons d more =>
      have hmore := h.longest more (List.cons_prefix_cons.mp hxs).2 (List.cons_prefix_cons.mp hys).2
      exact Nat.succ_le_succ hmore

/-- Every two lists have a longest common start, and its length is the computed one. -/
theorem exists_isCommonStart (xs ys : List Component) :
    ∃ common, IsCommonStart common xs ys ∧ commonLength xs ys = common.length := by
  induction xs generalizing ys with
  | nil => exact ⟨[], isCommonStart_nil (by simp), rfl⟩
  | cons x xs ih =>
      cases ys with
      | nil => exact ⟨[], isCommonStart_nil (by simp), rfl⟩
      | cons y ys =>
          by_cases hxy : x = y
          · subst hxy
            obtain ⟨common, hcommon, hlength⟩ := ih ys
            refine ⟨x :: common, hcommon.cons x, ?_⟩
            rw [commonLength, if_pos rfl, hlength, List.length_cons]
          · refine ⟨[], isCommonStart_nil ?_, ?_⟩
            · simpa using Ne.symm hxy
            · rw [commonLength, if_neg hxy, List.length_nil]

theorem IsCommonStart.unique {common common' xs ys : List Component}
    (h : IsCommonStart common xs ys) (h' : IsCommonStart common' xs ys) : common = common' := by
  have hle := h'.longest common h.left h.right
  have hge := h.longest common' h'.left h'.right
  exact (List.prefix_of_prefix_length_le h.left h'.left hle).eq_of_length (by omega)

theorem IsCommonStart.commonLength_eq {common xs ys : List Component}
    (h : IsCommonStart common xs ys) : commonLength xs ys = common.length := by
  obtain ⟨other, hother, hlength⟩ := exists_isCommonStart xs ys
  rw [hlength, hother.unique h]

/-- The way climbs to where the two paths part, and goes down from there. -/
theorem stepsBetween?_parted (h : IsCommonStart above (above ++ rest) (above ++ below))
    (hhead : (above ++ rest).head? = (above ++ below).head?) :
    stepsBetween? (above ++ rest) (above ++ below)
      = some (List.replicate below.length .up ++ rest.filter isStep) := by
  have hclimb : (above ++ below).length - above.length = below.length := by
    rw [List.length_append]
    omega
  rw [stepsBetween?, if_pos hhead, h.commonLength_eq]
  show some (List.replicate ((above ++ below).length - above.length) Component.up
    ++ ((above ++ rest).drop above.length).filter isStep) = _
  rw [hclimb, List.drop_left]

/-- Paths that start alike share a component, unless both are empty. -/
theorem IsCommonStart.ne_nil_or {common xs ys : List Component} (h : IsCommonStart common xs ys)
    (hhead : xs.head? = ys.head?) : common ≠ [] ∨ xs = [] ∧ ys = [] := by
  cases xs with
  | nil => exact Or.inr ⟨rfl, List.head?_eq_none_iff.mp hhead.symm⟩
  | cons x xs =>
      obtain ⟨more, rfl⟩ := List.head?_eq_some_iff.mp hhead.symm
      have hshared := h.longest [x] ⟨xs, rfl⟩ ⟨more, rfl⟩
      refine Or.inl fun hnil => ?_
      rw [hnil] at hshared
      exact absurd hshared (by simp)

theorem IsSensible.isProper_of_append (h : IsSensible (above ++ rest)) (habove : above ≠ []) :
    ∀ c ∈ rest, c.IsProper := by
  obtain ⟨a, more, rfl⟩ := List.exists_cons_of_ne_nil habove
  exact fun c hc => h.2 c (List.mem_append_right more hc)

theorem filter_isStep (h : ∀ c ∈ cs, c.IsProper) : cs.filter isStep = cs := by
  refine List.filter_eq_self.mpr fun c hc => ?_
  have hproper := h c hc
  cases c with
  | root => exact hproper.elim
  | here => exact hproper.elim
  | up => rfl
  | name s => rfl

/-- **Two paths that start alike part somewhere.** What is left of them from there on are proper
steps, and the way from one to the other is made of these. -/
theorem exists_parting (target base : Path)
    (hhead : target.components.head? = base.components.head?) :
    ∃ common rest below, IsCommonStart common target.components base.components
      ∧ target.components = common ++ rest ∧ base.components = common ++ below
      ∧ (∀ c ∈ rest, c.IsProper) ∧ (∀ c ∈ below, c.IsProper)
      ∧ stepsBetween? target.components base.components
          = some (List.replicate below.length .up ++ rest) := by
  obtain ⟨common, hcommon, -⟩ := exists_isCommonStart target.components base.components
  obtain ⟨rest, hrest⟩ := hcommon.left
  obtain ⟨below, hbelow⟩ := hcommon.right
  have hproper : (∀ c ∈ rest, c.IsProper) ∧ ∀ c ∈ below, c.IsProper := by
    rcases hcommon.ne_nil_or hhead with hne | ⟨htarget, hbase⟩
    · exact ⟨(hrest ▸ isSensible_components target).isProper_of_append hne,
        (hbelow ▸ isSensible_components base).isProper_of_append hne⟩
    · rw [htarget, List.append_eq_nil_iff] at hrest
      rw [hbase, List.append_eq_nil_iff] at hbelow
      simp [hrest.2, hbelow.2]
  refine ⟨common, rest, below, hcommon, hrest.symm, hbelow.symm, hproper.1, hproper.2, ?_⟩
  rw [← hrest, ← hbelow] at hcommon hhead ⊢
  rw [stepsBetween?_parted hcommon hhead, filter_isStep hproper.1]

/-! ## Turning off above the importing file -/

theorem isCommonStart_append {d : Component} (h : d ≠ c) (above rest below : List Component) :
    IsCommonStart above (above ++ d :: rest) (above ++ c :: below) := by
  induction above with
  | nil => exact isCommonStart_nil (by simpa using Ne.symm h)
  | cons a above ih => exact ih.cons a

/-- What climbs in front is dropped. -/
theorem dropWhile_isClimb_append (n : Nat) (cs : List Component) :
    (List.replicate n Component.up ++ cs).dropWhile isClimb = cs.dropWhile isClimb := by
  refine List.dropWhile_append_of_pos fun c hc => ?_
  rw [List.eq_of_mem_replicate hc]
  rfl

theorem entersAfterClimb_climb (n : Nat) (dir : String) (more : List Component) :
    entersAfterClimb dirs (List.replicate (n + 1) .up ++ .name dir :: more)
      = dirs.contains dir := by
  have hhead : ((List.replicate (n + 1) Component.up ++ .name dir :: more).head?.any isClimb)
      = true := by
    simp [List.replicate_succ, isClimb]
  rw [entersAfterClimb, dropWhile_isClimb_append, hhead, Bool.true_and]
  rfl

/-- **A path that turns off into a library directory above the importing file is library code.**
The importing file goes on elsewhere from there. -/
theorem isLibrary_of_turn {dir : String} (hdir : dir ∈ dirs)
    (htarget : target.components = above ++ .name dir :: rest)
    (himporter : importer.components = above ++ c :: below) (hc : c ≠ .name dir) :
    importer.isLibrary target dirs = true := by
  rw [isLibrary_iff]
  cases habs : target.isAbsolute with
  | false => exact Or.inl rfl
  | true =>
      -- An absolute path starts with the root, so the two paths share at least that.
      have habove : above ≠ [] := by
        rintro rfl
        rw [isAbsolute_iff, htarget] at habs
        cases habs
      have hsteps : stepsBetween? target.components importer.components
          = some (List.replicate (below.length + 1) .up ++ .name dir :: rest.filter isStep) := by
        have hhead : (above ++ .name dir :: rest).head? = (above ++ c :: below).head? := by
          obtain ⟨a, more, rfl⟩ := List.exists_cons_of_ne_nil habove
          rfl
        rw [htarget, himporter,
          stepsBetween?_parted (isCommonStart_append (Ne.symm hc) above rest below) hhead]
        rfl
      refine Or.inr ⟨_, hsteps, ?_⟩
      rw [entersAfterClimb_climb, List.contains_iff_mem]
      exact hdir

end Path

end ModuleGraph
