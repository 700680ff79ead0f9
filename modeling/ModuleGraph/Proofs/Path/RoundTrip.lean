import ModuleGraph.Proofs.Path.Clean
import ModuleGraph.Proofs.Path.Relative

set_option autoImplicit false

/-! # The way there leads there

A way leads from one path to another exactly when the two start alike
(`relativeTo?_eq_none_iff`). It climbs out of what only the first path has and goes down to what
only the second one has. What it climbs out of are names, unless the first path has a `..`, and
each step `..` takes the last of these names off the stack of the cleaner
(`foldl_cleanStep_climb`). So joining the way to the first path gives the normal form of the second
(`relativeTo?_round_trip`), whatever steps `..` the second path has.
-/

namespace ModuleGraph

namespace Path

variable {target base way : Path} {steps common rest below : List Component}

/-! ## Climbing -/

/-- As many steps `..` as there are names on top of a stack lead back to what is below them. -/
theorem foldl_cleanStep_climb (hproper : ∀ c ∈ below, c.IsProper) (hup : .up ∉ below)
    (kept : List Component) :
    (List.replicate below.length Component.up).foldl cleanStep (below.foldl cleanStep kept) = kept := by
  induction below generalizing kept with
  | nil => rfl
  | cons c more ih =>
      rw [List.forall_mem_cons] at hproper
      rw [List.mem_cons, not_or] at hup
      cases c with
      | root => exact hproper.1.elim
      | here => exact hproper.1.elim
      | up => exact absurd rfl hup.1
      | name s =>
          -- The first name lies lowest, so the last step takes it off.
          have hmore := ih hproper.2 hup.2 (.name s :: kept)
          have hpush : (Component.name s :: more).foldl cleanStep kept
              = more.foldl cleanStep (.name s :: kept) := rfl
          rw [hpush, List.length_cons, List.replicate_succ', List.foldl_append, hmore]
          rfl

/-- From the end of one path, the way does to the stack what the other path does. -/
theorem foldl_cleanStep_way (hproper : ∀ c ∈ below, c.IsProper) (hup : .up ∉ below)
    (common rest : List Component) :
    (List.replicate below.length Component.up ++ rest).foldl cleanStep
        ((common ++ below).foldl cleanStep [])
      = (common ++ rest).foldl cleanStep [] := by
  have hclimb := foldl_cleanStep_climb hproper hup (common.foldl cleanStep [])
  rw [List.foldl_append, List.foldl_append, hclimb, ← List.foldl_append]

/-! ## The written way -/

theorem relativeTo?_eq_none_iff :
    target.relativeTo? base = none ↔ target.components.head? ≠ base.components.head? := by
  rw [relativeTo?, Option.map_eq_none_iff, stepsBetween?]
  by_cases hhead : target.components.head? = base.components.head?
  · simp [hhead]
  · simp [hhead]

theorem head?_eq_of_relativeTo? (h : target.relativeTo? base = some way) :
    target.components.head? = base.components.head? := by
  by_cases hhead : target.components.head? = base.components.head?
  · exact hhead
  · rw [relativeTo?_eq_none_iff.mpr hhead] at h
    cases h

/-- The components of a way are its steps, except that a way without steps is written `.`. -/
theorem exists_steps (h : target.relativeTo? base = some way) :
    ∃ steps, stepsBetween? target.components base.components = some steps
      ∧ (steps = [] → way = ⟨"."⟩) ∧ (steps ≠ [] → way.components = steps) := by
  have hcomponents := components_relativeTo? target base
  obtain ⟨steps, hsteps, hway⟩ := Option.map_eq_some_iff.mp h
  refine ⟨steps, hsteps, ?_, ?_⟩
  · rintro rfl
    exact hway.symm
  · intro hne
    rw [h, hsteps, Option.map_some, Option.map_some, if_neg hne] at hcomponents
    exact Option.some.inj hcomponents

theorem isAbsolute_eq_false_of_relativeTo? (h : target.relativeTo? base = some way) :
    way.isAbsolute = false := by
  obtain ⟨steps, hsteps, hnil, hcons⟩ := exists_steps h
  by_cases hempty : steps = []
  · rw [hnil hempty]
    rfl
  · rw [← Bool.not_eq_true, isAbsolute_iff_root_mem, hcons hempty]
    exact fun hroot => isProper_of_mem_steps hsteps hroot

theorem text_ne_of_relativeTo? (h : target.relativeTo? base = some way) : way.text ≠ "" := by
  obtain ⟨steps, hsteps, hnil, hcons⟩ := exists_steps h
  by_cases hempty : steps = []
  · rw [hnil hempty]
    decide
  · intro htext
    have hcomponents := hcons hempty
    rw [components, htext] at hcomponents
    exact hempty hcomponents.symm

/-- Written as a path, the way does to a stack what its steps do. -/
theorem foldl_cleanStep_of_relativeTo? (h : target.relativeTo? base = some way)
    (hsteps : stepsBetween? target.components base.components = some steps)
    (kept : List Component) : way.components.foldl cleanStep kept = steps.foldl cleanStep kept := by
  obtain ⟨steps', hsteps', hnil, hcons⟩ := exists_steps h
  obtain rfl : steps = steps' := Option.some.inj (hsteps.symm.trans hsteps')
  by_cases hempty : steps = []
  · rw [hnil hempty, hempty]
    rfl
  · rw [hcons hempty]

/-- **Following the way leads to its target.** -/
theorem clean_join_of_relativeTo? (h : target.relativeTo? base = some way)
    (hup : .up ∉ base.components) : (base.join way).clean = target.clean := by
  obtain ⟨common, rest, below, -, htarget, hbase, -, hbelow, hsteps⟩ :=
    exists_parting target base (head?_eq_of_relativeTo? h)
  have hnames : .up ∉ below := fun hmem => hup (hbase ▸ List.mem_append_right common hmem)
  have hstack : (base.join way).components.foldl cleanStep []
      = target.components.foldl cleanStep [] :=
    calc (base.join way).components.foldl cleanStep []
        = way.components.foldl cleanStep (base.components.foldl cleanStep []) :=
          foldl_cleanStep_join (isAbsolute_eq_false_of_relativeTo? h) base
      _ = (List.replicate below.length Component.up ++ rest).foldl cleanStep
            ((common ++ below).foldl cleanStep []) := by
          rw [foldl_cleanStep_of_relativeTo? h hsteps, hbase]
      _ = target.components.foldl cleanStep [] := by
          rw [foldl_cleanStep_way hbelow hnames, htarget]
  refine clean_eq_of_cleanComponents ?_
  rw [cleanComponents, cleanComponents, hstack]

/-- **The shape of the way:** as many steps `..` as the base has components behind the longest
common start, and then what the target has behind it. -/
theorem exists_common_of_relativeTo? (h : target.relativeTo? base = some way) :
    ∃ common, IsCommonStart common target.components base.components
      ∧ (target.components = base.components → way = ⟨"."⟩)
      ∧ (target.components ≠ base.components → way.components
          = List.replicate (base.components.length - common.length) .up
            ++ target.components.drop common.length) := by
  obtain ⟨common, rest, below, hcommon, htarget, hbase, -, -, hsteps⟩ :=
    exists_parting target base (head?_eq_of_relativeTo? h)
  obtain ⟨steps, hsteps', hnil, hcons⟩ := exists_steps h
  obtain rfl : steps = List.replicate below.length .up ++ rest :=
    Option.some.inj (hsteps'.symm.trans hsteps)
  have hequal : List.replicate below.length Component.up ++ rest = [] ↔
      target.components = base.components := by
    rw [htarget, hbase]
    constructor
    · intro hempty
      obtain ⟨hclimb, rfl⟩ := List.append_eq_nil_iff.mp hempty
      rw [List.replicate_eq_nil_iff, List.length_eq_zero_iff] at hclimb
      rw [hclimb]
    · intro heq
      -- Two equal paths have all of their components in common.
      have hsame : target.components = base.components := by rw [htarget, hbase, heq]
      have hwhole := hcommon.longest target.components (List.prefix_refl _)
        (hsame ▸ List.prefix_refl _)
      obtain rfl := List.append_cancel_left heq
      have hlength : rest.length = 0 := by
        rw [htarget, List.length_append] at hwhole
        omega
      rw [List.length_eq_zero_iff.mp hlength]
      rfl
  refine ⟨common, hcommon, fun heq => hnil (hequal.mpr heq), fun hne => ?_⟩
  have hclimb : base.components.length - common.length = below.length := by
    rw [hbase, List.length_append]
    omega
  have hdown : target.components.drop common.length = rest := by rw [htarget, List.drop_left]
  rw [hclimb, hdown]
  exact hcons fun hempty => hne (hequal.mp hempty)

/-- The climbing part of a list is as long as it looks if nothing behind it climbs. -/
theorem length_takeWhile_climb (hup : .up ∉ rest) (n : Nat) :
    ((List.replicate n Component.up ++ rest).takeWhile (· = .up)).length = n := by
  have hrest : rest.takeWhile (· = .up) = [] := by
    cases rest with
    | nil => rfl
    | cons c more => simp [Ne.symm (List.ne_of_not_mem_cons hup)]
  rw [List.takeWhile_append_of_pos, hrest, List.append_nil, List.length_replicate]
  exact fun c hc => decide_eq_true (List.eq_of_mem_replicate hc)

/-- **The way between two paths.** There is none if and only if the paths differ in their first
components, where a missing one differs from every other. A way is never absolute and never empty.
It has as many steps `..` as the base has components behind the longest common start, and then
follows what the target has behind it; between equal paths it is `.`. If the target has no `..`,
these are all of its steps `..`. From a base without `..`, the way leads to the normal form of the
target. -/
theorem relativeTo?_round_trip (target base : Path) :
    (target.relativeTo? base = none ↔ target.components.head? ≠ base.components.head?) ∧
    ∀ way, target.relativeTo? base = some way →
      way.isAbsolute = false ∧ way.text ≠ "" ∧
      (.up ∉ base.components → (base.join way).clean = target.clean) ∧
      ∃ common, IsCommonStart common target.components base.components ∧
        (target.components = base.components → way = ⟨"."⟩) ∧
        (target.components ≠ base.components → way.components
          = List.replicate (base.components.length - common.length) .up
            ++ target.components.drop common.length) ∧
        (.up ∉ target.components → (way.components.takeWhile (· = .up)).length
          = base.components.length - common.length) := by
  refine ⟨relativeTo?_eq_none_iff, fun way h => ⟨isAbsolute_eq_false_of_relativeTo? h,
    text_ne_of_relativeTo? h, clean_join_of_relativeTo? h, ?_⟩⟩
  obtain ⟨common, hcommon, hequal, hdiffer⟩ := exists_common_of_relativeTo? h
  refine ⟨common, hcommon, hequal, hdiffer, fun hup => ?_⟩
  by_cases heq : target.components = base.components
  · have hwhole := hcommon.longest base.components (heq ▸ List.prefix_refl _) (List.prefix_refl _)
    have hclimb : base.components.length - common.length = 0 := by omega
    rw [hequal heq, hclimb]
    rfl
  · rw [hdiffer heq]
    exact length_takeWhile_climb (fun hmem => hup (List.mem_of_mem_drop hmem)) _

/-- From `/a/b/e.js` to `/a//c/d.js`. -/
theorem relativeTo?_round_trip_sample :
    relativeTo? ⟨"/a//c/d.js"⟩ ⟨"/a/b/e.js"⟩ = some ⟨"../../c/d.js"⟩ ∧
      .up ∉ components ⟨"/a/b/e.js"⟩ ∧ .up ∉ components ⟨"/a//c/d.js"⟩ ∧
      components ⟨"/a//c/d.js"⟩ ≠ components ⟨"/a/b/e.js"⟩ ∧
      (join ⟨"/a/b/e.js"⟩ ⟨"../../c/d.js"⟩).clean = clean ⟨"/a//c/d.js"⟩ ∧
      ∃ common, IsCommonStart common (components ⟨"/a//c/d.js"⟩) (components ⟨"/a/b/e.js"⟩) ∧
        components ⟨"../../c/d.js"⟩
          = List.replicate ((components ⟨"/a/b/e.js"⟩).length - common.length) .up
            ++ (components ⟨"/a//c/d.js"⟩).drop common.length ∧
        ((components ⟨"../../c/d.js"⟩).takeWhile (· = .up)).length
          = (components ⟨"/a/b/e.js"⟩).length - common.length := by
  have hway : relativeTo? ⟨"/a//c/d.js"⟩ ⟨"/a/b/e.js"⟩ = some ⟨"../../c/d.js"⟩ := by decide
  have hbase : .up ∉ components ⟨"/a/b/e.js"⟩ := by decide
  have htarget : .up ∉ components ⟨"/a//c/d.js"⟩ := by decide
  have hne : components ⟨"/a//c/d.js"⟩ ≠ components ⟨"/a/b/e.js"⟩ := by decide
  obtain ⟨-, -, hclean, common, hcommon, -, hdiffer, hclimb⟩ :=
    (relativeTo?_round_trip ⟨"/a//c/d.js"⟩ ⟨"/a/b/e.js"⟩).2 _ hway
  exact ⟨hway, hbase, htarget, hne, hclean hbase, common, hcommon, hdiffer hne, hclimb htarget⟩

end Path

end ModuleGraph
