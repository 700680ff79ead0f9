import ModuleGraph.Proofs.Path.Clean
import ModuleGraph.Proofs.Path.Relative

set_option autoImplicit false

/-! # Library directories above a file

The library test reads the way from the importing file. What it finds out can be said without any
way (`isLibrary_iff_parting`): behind what the two paths have in common, the importing file goes on
or the other path climbs first, and then the other path enters a library directory. If no `..` is
left in the other path, this is a library directory that lies in a directory above the importing
file, contains the other path, and does not contain the importing file (`isLibrary_iff_above`).
-/

namespace ModuleGraph

namespace Path

variable {target importer : Path} {common steps rest below : List Component} {dirs : List String}

/-! ## Directories above a path -/

/-- `a.Contains p`: `p` is `a` itself or lies below it. -/
def Contains (a p : Path) : Prop := a.components <+: p.components

instance (a p : Path) : Decidable (a.Contains p) :=
  inferInstanceAs (Decidable (a.components <+: p.components))

/-- `a.IsAbove p`: one gets from `a` to `p` by going down at least one step. -/
def IsAbove (a p : Path) : Prop := a.Contains p ∧ a.components ≠ p.components

instance (a p : Path) : Decidable (a.IsAbove p) :=
  inferInstanceAs (Decidable (_ ∧ _))

theorem IsSensible.of_start {cs ds : List Component} (h : IsSensible ds) (hcs : cs <+: ds) :
    IsSensible cs := by
  obtain ⟨more, rfl⟩ := hcs
  cases cs with
  | nil => trivial
  | cons c rest => exact ⟨h.1, fun d hd => h.2 d (List.mem_append_left more hd)⟩

/-- Everything that the components of a path start with is a path. -/
theorem exists_path_of_start {p : Path} (h : common <+: p.components) :
    ∃ a : Path, a.components = common :=
  ⟨ofComponents common, components_ofComponents ((isSensible_components p).of_start h)⟩

/-- A directory in `a` has the components of `a` and its own name. -/
theorem components_join_name {a : Path} {dir : String} (ha : a.isAbsolute = true)
    (hdir : (Component.name dir).IsProper) :
    (a.join ⟨dir⟩).components = a.components ++ [.name dir] := by
  obtain ⟨rest, htext⟩ := exists_text_of_isAbsolute ha
  have hsteps : stepsOf dir.toList = [.name dir] := stepsOf_text hdir
  have hhead : dir.toList.head? ≠ some '/' := fun hhead =>
    Component.slash_not_mem_text hdir (List.mem_of_mem_head? hhead)
  rw [components_join (by simp [htext]) hhead, hsteps]

/-! ## Where the way enters a library -/

/-- Proper steps that climb are steps `..`. -/
theorem takeWhile_isClimb_eq (hproper : ∀ c ∈ rest, c.IsProper) :
    rest.takeWhile isClimb = List.replicate (rest.takeWhile isClimb).length .up := by
  refine List.eq_replicate_of_mem fun c hc => ?_
  have hc' := hproper c (List.takeWhile_subset _ hc)
  have hclimbs := List.all_eq_true.mp List.all_takeWhile c hc
  cases c with
  | root => cases hclimbs
  | here => exact hc'.elim
  | up => rfl
  | name s => cases hclimbs

/-- **A way enters a library directory** when it climbs at least once and the first step that does
not climb is the name of such a directory. -/
theorem entersAfterClimb_iff (hproper : ∀ c ∈ rest, c.IsProper) (height : Nat) :
    entersAfterClimb dirs (List.replicate height .up ++ rest) = true ↔
      ∃ n dir more, rest = List.replicate n .up ++ .name dir :: more ∧ dir ∈ dirs
        ∧ (0 < height ∨ 0 < n) := by
  constructor
  · intro h
    rw [entersAfterClimb, dropWhile_isClimb_append, Bool.and_eq_true] at h
    obtain ⟨hstarts, henters⟩ := h
    split at henters
    · rename_i dir more hmore
      refine ⟨(rest.takeWhile isClimb).length, dir, more, ?_, by simpa using henters, ?_⟩
      · rw [← takeWhile_isClimb_eq hproper, ← hmore, List.takeWhile_append_dropWhile]
      · cases height with
        | zero =>
            cases rest with
            | nil => cases hstarts
            | cons c rest =>
                have hc : isClimb c = true := hstarts
                simp [hc]
        | succ height => exact Or.inl (Nat.succ_pos height)
    · cases henters
  · rintro ⟨n, dir, more, rfl, hdir, hpos⟩
    obtain ⟨height', hheight⟩ : ∃ height', height + n = height' + 1 :=
      ⟨height + n - 1, by omega⟩
    rw [← List.append_assoc, List.replicate_append_replicate, hheight, entersAfterClimb_climb,
      List.contains_iff_mem]
    exact hdir

theorem head?_eq_of_isAbsolute (htarget : target.isAbsolute = true)
    (himporter : importer.isAbsolute = true) :
    target.components.head? = importer.components.head? := by
  rw [(isAbsolute_iff target).mp htarget, (isAbsolute_iff importer).mp himporter]

/-- **The library test without the way**, for all absolute paths: behind the longest common start,
the other path climbs or the importing file goes on, and the other path then enters a library
directory. -/
theorem isLibrary_iff_parting (htarget : target.isAbsolute = true)
    (himporter : importer.isAbsolute = true) :
    importer.isLibrary target dirs = true ↔
      ∃ common n dir more, IsCommonStart common target.components importer.components
        ∧ target.components = common ++ (List.replicate n .up ++ .name dir :: more)
        ∧ dir ∈ dirs ∧ (common ≠ importer.components ∨ 0 < n) := by
  obtain ⟨common, rest, below, hcommon, hrest, hbelow, hproper, -, hsteps⟩ :=
    exists_parting target importer (head?_eq_of_isAbsolute htarget himporter)
  have hgoes : 0 < below.length ↔ common ≠ importer.components := by
    rw [hbelow, List.length_pos_iff]
    exact not_congr List.self_eq_append_right.symm
  have htest : importer.isLibrary target dirs = true ↔
      entersAfterClimb dirs (List.replicate below.length .up ++ rest) = true := by
    rw [isLibrary_iff, htarget, hsteps]
    simp
  rw [htest, entersAfterClimb_iff hproper]
  constructor
  · rintro ⟨n, dir, more, rfl, hdir, hpos⟩
    exact ⟨common, n, dir, more, hcommon, hrest, hdir, hpos.imp_left hgoes.mp⟩
  · rintro ⟨common', n, dir, more, hcommon', hmore, hdir, hpos⟩
    obtain rfl := hcommon.unique hcommon'
    refine ⟨n, dir, more, List.append_cancel_left (hrest.symm.trans hmore), hdir, ?_⟩
    exact hpos.imp_left hgoes.mpr

theorem isLibrary_eq_false_of_not_isAbsolute (htarget : target.isAbsolute = true)
    (himporter : importer.isAbsolute = false) : importer.isLibrary target dirs = false := by
  rw [← Bool.not_eq_true, isLibrary_iff]
  rintro (hfalse | ⟨steps, hsteps, -⟩)
  · rw [htarget] at hfalse
    cases hfalse
  · unfold stepsBetween? at hsteps
    split at hsteps
    · rename_i hhead
      rw [(isAbsolute_iff target).mp htarget] at hhead
      rw [(isAbsolute_iff importer).mpr hhead.symm] at himporter
      cases himporter
    · cases hsteps

/-! ## Libraries above a file -/

/-- Below a path, one goes on with some step. -/
theorem IsAbove.exists_step {a p : Path} (h : a.IsAbove p) :
    ∃ c more, p.components = a.components ++ c :: more := by
  obtain ⟨⟨below, hbelow⟩, hne⟩ := h
  cases below with
  | nil => exact absurd (by simpa using hbelow) hne
  | cons c more => exact ⟨c, more, hbelow.symm⟩

/-- What two absolute paths have in common starts at the root. -/
theorem isAbsolute_of_isCommonStart {above : Path} (htarget : target.isAbsolute = true)
    (himporter : importer.isAbsolute = true)
    (hcommon : IsCommonStart above.components target.components importer.components) :
    above.isAbsolute = true := by
  rcases hcommon.ne_nil_or (head?_eq_of_isAbsolute htarget himporter) with hne | ⟨hnil, -⟩
  · obtain ⟨more, hmore⟩ := hcommon.left
    obtain ⟨c, rest, habove⟩ := List.exists_cons_of_ne_nil hne
    rw [isAbsolute_iff] at htarget ⊢
    rw [habove] at hmore ⊢
    rw [← htarget, ← hmore]
    rfl
  · rw [isAbsolute_iff, hnil] at htarget
    cases htarget

/-- A library directory above a file, with the path but not the file inside, makes the path
library code. The path may have steps `..` here. -/
theorem isLibrary_of_isAbove {above : Path} {dir : String} (habs : above.isAbsolute = true)
    (habove : above.IsAbove importer) (hdir : dir ∈ dirs) (hproper : (Component.name dir).IsProper)
    (hcontains : (above.join ⟨dir⟩).Contains target)
    (houtside : ¬ (above.join ⟨dir⟩).Contains importer) :
    importer.isLibrary target dirs = true := by
  rw [Contains, components_join_name habs hproper] at hcontains houtside
  obtain ⟨more, hmore⟩ := hcontains
  obtain ⟨c, below, hbelow⟩ := habove.exists_step
  have hc : c ≠ .name dir := by
    rintro rfl
    exact houtside ⟨below, by simp [hbelow]⟩
  exact isLibrary_of_turn hdir (by simpa using hmore.symm) hbelow hc

/-- Without `..`, a path becomes library code in no other way. -/
theorem exists_isAbove_of_isLibrary (htarget : target.isAbsolute = true)
    (himporter : importer.isAbsolute = true) (hup : .up ∉ target.components)
    (h : importer.isLibrary target dirs = true) :
    ∃ (above : Path) (dir : String), above.isAbsolute = true ∧ above.IsAbove importer ∧
      dir ∈ dirs ∧ (Component.name dir).IsProper ∧
      (above.join ⟨dir⟩).Contains target ∧ ¬ (above.join ⟨dir⟩).Contains importer := by
  obtain ⟨common, n, dir, more, hcommon, hmore, hdir, hpos⟩ :=
    (isLibrary_iff_parting htarget himporter).mp h
  obtain rfl : n = 0 := by
    cases n with
    | zero => rfl
    | succ n => exact absurd (hmore ▸ by simp [List.replicate_succ]) hup
  have hproper : (Component.name dir).IsProper :=
    isProper_of_isStep (isSensible_components target) (hmore ▸ by simp) rfl
  obtain ⟨above, rfl⟩ := exists_path_of_start hcommon.left
  have habs := isAbsolute_of_isCommonStart htarget himporter hcommon
  have hjoin := components_join_name habs hproper
  have hinside : above.components ++ [.name dir] <+: target.components :=
    hmore ▸ ⟨more, by simp⟩
  refine ⟨above, dir, habs, ⟨hcommon.right, hpos.resolve_right (Nat.lt_irrefl 0)⟩, hdir, hproper,
    ?_, ?_⟩
  · rw [Contains, hjoin]
    exact hinside
  · rw [Contains, hjoin]
    intro houtside
    -- Otherwise both paths would share the name of the library, too.
    have hshared := hcommon.longest _ hinside houtside
    rw [List.length_append, List.length_singleton] at hshared
    omega

/-- **Library code, by ancestors.** A path that is not absolute is always library code, and an
absolute one never is for a relative file. An absolute path without `..` is library code for an
absolute file if and only if there are a directory above the file and a single name among the
library directories such that the directory of this name in there contains the path but not the
file. -/
theorem isLibrary_iff_above (importer target : Path) (dirs : List String) :
    (target.isAbsolute = false → importer.isLibrary target dirs = true) ∧
    (target.isAbsolute = true → importer.isAbsolute = false →
      importer.isLibrary target dirs = false) ∧
    (target.isAbsolute = true → importer.isAbsolute = true → .up ∉ target.components →
      (importer.isLibrary target dirs = true ↔
        ∃ (above : Path) (dir : String), above.isAbsolute = true ∧ above.IsAbove importer ∧
          dir ∈ dirs ∧ (Component.name dir).IsProper ∧
          (above.join ⟨dir⟩).Contains target ∧ ¬ (above.join ⟨dir⟩).Contains importer)) := by
  refine ⟨fun htarget => isLibrary_iff.mpr (Or.inl htarget),
    isLibrary_eq_false_of_not_isAbsolute, fun htarget himporter hup => ?_⟩
  constructor
  · exact exists_isAbove_of_isLibrary htarget himporter hup
  · rintro ⟨above, dir, habs, habove, hdir, hproper, hcontains, houtside⟩
    exact isLibrary_of_isAbove habs habove hdir hproper hcontains houtside

/-- A package next to the sources of `/repo/src/./index.js`, and two paths of other kinds. -/
theorem isLibrary_iff_above_sample :
    (isAbsolute ⟨"node:fs"⟩ = false ∧
      isLibrary ⟨"/repo/src/./index.js"⟩ ⟨"node:fs"⟩ ["node_modules"] = true) ∧
    (isAbsolute ⟨"/repo//node_modules/a.js"⟩ = true ∧ isAbsolute ⟨"src/index.js"⟩ = false ∧
      isLibrary ⟨"src/index.js"⟩ ⟨"/repo//node_modules/a.js"⟩ ["node_modules"] = false) ∧
    (isAbsolute ⟨"/repo/src/./index.js"⟩ = true ∧
      .up ∉ components ⟨"/repo//node_modules/a.js"⟩ ∧
      isLibrary ⟨"/repo/src/./index.js"⟩ ⟨"/repo//node_modules/a.js"⟩ ["node_modules"] = true) := by
  have hbuiltIn : isAbsolute ⟨"node:fs"⟩ = false := by decide
  have htarget : isAbsolute ⟨"/repo//node_modules/a.js"⟩ = true := by decide
  have hrelative : isAbsolute ⟨"src/index.js"⟩ = false := by decide
  have himporter : isAbsolute ⟨"/repo/src/./index.js"⟩ = true := by decide
  have hup : .up ∉ components ⟨"/repo//node_modules/a.js"⟩ := by decide
  have hlibrary := (isLibrary_iff_above ⟨"/repo/src/./index.js"⟩ ⟨"/repo//node_modules/a.js"⟩
    ["node_modules"]).2.2 htarget himporter hup
  refine ⟨⟨hbuiltIn, (isLibrary_iff_above _ _ _).1 hbuiltIn⟩,
    ⟨htarget, hrelative, (isLibrary_iff_above _ _ _).2.1 htarget hrelative⟩,
    himporter, hup, hlibrary.mpr ?_⟩
  exact ⟨⟨"/repo"⟩, "node_modules", by decide, by decide, by decide, by decide, by decide,
    by decide⟩

end Path

end ModuleGraph
