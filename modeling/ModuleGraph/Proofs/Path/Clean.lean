import ModuleGraph.Path.Clean
import ModuleGraph.Proofs.Path.Components

set_option autoImplicit false

/-! # Cleaning is a normal form

Cleaning runs a stack over the components of a path. The stacks that it can leave are the
`IsSettled` ones, and running it over a settled stack changes nothing. So `clean` is
idempotent (`clean_clean`), and since it only looks at components, a clean path has one
spelling (`IsClean.eq_of_same`). Cleaning the steps of a path first does not change what they do
to a stack, so paths with one normal form are the same file from every directory
(`absolutize_congr`).
-/

namespace ModuleGraph

namespace Path

/-- A stack of components, last one first, in which nothing is left to resolve. -/
def IsSettled : List Component → Prop
  | [] => True
  | .root :: rest => rest = []
  | .here :: _ => False
  | .up :: rest => ∀ c ∈ rest, c = .up
  | .name s :: rest => (Component.name s).IsProper ∧ IsSettled rest

theorem isSettled_of_forall_up {kept : List Component} (h : ∀ c ∈ kept, c = .up) :
    IsSettled kept := by
  cases kept with
  | nil => trivial
  | cons c rest =>
      obtain rfl := h c List.mem_cons_self
      exact fun d hd => h d (List.mem_cons_of_mem _ hd)

theorem IsSettled.tail {c : Component} {rest : List Component} (h : IsSettled (c :: rest)) :
    IsSettled rest := by
  cases c with
  | root =>
      obtain rfl : rest = [] := h
      trivial
  | here => exact h.elim
  | up => exact isSettled_of_forall_up h
  | name s => exact h.2

/-- A proper component leaves a settled stack settled. -/
theorem IsSettled.cleanStep {kept : List Component} {c : Component} (hc : c.IsProper)
    (h : IsSettled kept) : IsSettled (cleanStep kept c) := by
  cases c with
  | root => exact hc.elim
  | here => exact hc.elim
  | name s => exact ⟨hc, h⟩
  | up =>
      cases kept with
      | nil => simp [Path.cleanStep, IsSettled]
      | cons d rest =>
          cases d with
          | root => exact h
          | here => exact h.elim
          | up => simpa [Path.cleanStep, IsSettled] using h
          | name s => exact h.2

theorem IsSettled.foldl_cleanStep {cs kept : List Component} (hcs : ∀ c ∈ cs, c.IsProper)
    (h : IsSettled kept) : IsSettled (cs.foldl Path.cleanStep kept) := by
  induction cs generalizing kept with
  | nil => exact h
  | cons c rest ih =>
      exact ih (fun d hd => hcs d (List.mem_cons_of_mem _ hd))
        (h.cleanStep (hcs c List.mem_cons_self))

theorem isSettled_foldl_cleanStep {cs : List Component} (h : IsSensible cs) :
    IsSettled (cs.foldl cleanStep []) := by
  cases cs with
  | nil => trivial
  | cons c rest =>
      obtain ⟨hc, hrest⟩ := h
      rw [List.foldl_cons]
      refine IsSettled.foldl_cleanStep hrest ?_
      rcases hc with hc | rfl | rfl
      · have hnil : IsSettled [] := trivial
        exact hnil.cleanStep hc
      · exact rfl
      · trivial

/-- Nothing happens to a component that comes onto a settled stack where it belongs. -/
theorem cleanStep_of_isSettled {kept : List Component} {c : Component}
    (h : IsSettled (c :: kept)) : cleanStep kept c = c :: kept := by
  cases c with
  | root => rfl
  | here => exact h.elim
  | name s => rfl
  | up =>
      cases kept with
      | nil => rfl
      | cons d rest =>
          obtain rfl := h d List.mem_cons_self
          rfl

theorem foldl_cleanStep_reverse {kept : List Component} (h : IsSettled kept) :
    kept.reverse.foldl cleanStep [] = kept := by
  induction kept with
  | nil => rfl
  | cons c rest ih =>
      rw [List.reverse_cons, List.foldl_append, ih h.tail]
      exact cleanStep_of_isSettled h

/-- What is cleaned stays as it is. -/
theorem cleanComponents_cleanComponents {cs : List Component} (h : IsSensible cs) :
    cleanComponents (cleanComponents cs) = cleanComponents cs := by
  rw [cleanComponents, cleanComponents, foldl_cleanStep_reverse (isSettled_foldl_cleanStep h)]

theorem IsSensible.concat {cs : List Component} {c : Component} (h : IsSensible cs)
    (hc : c.IsProper) : IsSensible (cs ++ [c]) := by
  cases cs with
  | nil => exact ⟨Or.inl hc, by simp⟩
  | cons d rest =>
      refine ⟨h.1, fun e he => ?_⟩
      rcases List.mem_append.mp he with he | he
      · exact h.2 e he
      · rwa [List.mem_singleton.mp he]

theorem IsSettled.isSensible_reverse {kept : List Component} (h : IsSettled kept) :
    IsSensible kept.reverse := by
  induction kept with
  | nil => trivial
  | cons c rest ih =>
      rw [List.reverse_cons]
      cases c with
      | root =>
          obtain rfl : rest = [] := h
          exact ⟨Or.inr (Or.inl rfl), by simp⟩
      | here => exact h.elim
      | up => exact (ih h.tail).concat trivial
      | name s => exact (ih h.tail).concat h.1

/-- The components of a cleaned path, unless nothing is left of it. -/
theorem components_clean {p : Path} (h : cleanComponents p.components ≠ []) :
    p.clean.components = cleanComponents p.components := by
  have hsettled := isSettled_foldl_cleanStep (isSensible_components p)
  rw [clean]
  split
  · contradiction
  · exact components_ofComponents hsettled.isSensible_reverse

theorem clean_congr {p q : Path} (h : p.components = q.components) : p.clean = q.clean := by
  rw [clean, clean, h]

/-- **Cleaning twice is cleaning once.** -/
theorem clean_clean (p : Path) : p.clean.clean = p.clean := by
  by_cases h : cleanComponents p.components = []
  · have hp : p.clean = ⟨"."⟩ := by rw [clean, h]
    rw [hp]
    decide
  · have hc : cleanComponents p.clean.components = cleanComponents p.components := by
      rw [components_clean h, cleanComponents_cleanComponents (isSensible_components p)]
    rw [clean, hc]
    rfl

/-! ## Clean paths -/

/-- A path in normal form. -/
def IsClean (p : Path) : Prop := p.clean = p

instance (p : Path) : Decidable p.IsClean := inferInstanceAs (Decidable (p.clean = p))

theorem isClean_absolutize (p cwd : Path) : (p.absolutize cwd).IsClean := by
  unfold absolutize
  split <;> exact clean_clean _

/-- A clean path has no other clean spelling. -/
theorem IsClean.eq_of_same {p q : Path} (hp : p.IsClean) (hq : q.IsClean)
    (h : p.same q = true) : p = q := by
  rw [← hp, ← hq, clean_congr (of_decide_eq_true h)]

/-! ## Reading from a directory -/

/-- A step that cleaning takes does to any other stack what it does after the cleaned ones. -/
theorem foldl_reverse_cleanStep {top : List Component} {c : Component} (htop : IsSettled top)
    (hc : c.IsProper) (kept : List Component) :
    (cleanStep top c).reverse.foldl cleanStep kept
      = cleanStep (top.reverse.foldl cleanStep kept) c := by
  have hpush : ∀ d : Component, (d :: top).reverse.foldl cleanStep kept
      = cleanStep (top.reverse.foldl cleanStep kept) d := by
    intro d
    rw [List.reverse_cons, List.foldl_append, List.foldl_cons, List.foldl_nil]
  cases c with
  | root => exact hc.elim
  | here => exact hc.elim
  | name s => exact hpush (.name s)
  | up =>
      cases top with
      | nil => rfl
      | cons d rest =>
          cases d with
          | here => exact htop.elim
          | up => exact hpush .up
          | root =>
              obtain rfl : rest = [] := htop
              rfl
          | name s =>
              show rest.reverse.foldl cleanStep kept = _
              rw [List.reverse_cons, List.foldl_append]
              rfl

/-- Cleaned steps do to a stack what the steps do. -/
theorem foldl_cleanStep_foldl {steps top : List Component} (hsteps : ∀ c ∈ steps, c.IsProper)
    (htop : IsSettled top) (kept : List Component) :
    (steps.foldl cleanStep top).reverse.foldl cleanStep kept
      = steps.foldl cleanStep (top.reverse.foldl cleanStep kept) := by
  induction steps generalizing top with
  | nil => rfl
  | cons c rest ih =>
      have hc : c.IsProper := hsteps c List.mem_cons_self
      have hrest : ∀ d ∈ rest, d.IsProper := fun d hd => hsteps d (List.mem_cons_of_mem _ hd)
      rw [List.foldl_cons, List.foldl_cons, ih hrest (htop.cleanStep hc),
        foldl_reverse_cleanStep htop hc]

theorem root_mem_cleanStep (kept : List Component) (c : Component) :
    .root ∈ cleanStep kept c ↔ .root ∈ kept ∨ c = .root := by
  cases c with
  | root => simp [cleanStep]
  | here => simp [cleanStep]
  | name s => simp [cleanStep]
  | up =>
      cases kept with
      | nil => simp [cleanStep]
      | cons d rest => cases d <;> simp [cleanStep]

/-- Cleaning neither adds nor drops a root. -/
theorem root_mem_foldl_cleanStep (cs kept : List Component) :
    .root ∈ cs.foldl cleanStep kept ↔ .root ∈ kept ∨ .root ∈ cs := by
  induction cs generalizing kept with
  | nil => simp
  | cons c rest ih =>
      rw [List.foldl_cons, ih, root_mem_cleanStep, List.mem_cons, or_assoc, @eq_comm _ .root c]

theorem isAbsolute_iff_root_mem (p : Path) : p.isAbsolute = true ↔ .root ∈ p.components := by
  rw [isAbsolute_iff]
  have hsensible := isSensible_components p
  cases hp : p.components with
  | nil => simp
  | cons c rest =>
      rw [hp] at hsensible
      have hrest : .root ∉ rest := fun h => hsensible.2 .root h
      simp [hrest, eq_comm]

theorem here_not_mem_of_isSettled {kept : List Component} (h : IsSettled kept) :
    .here ∉ kept := by
  induction kept with
  | nil => exact List.not_mem_nil
  | cons c rest ih =>
      intro hmem
      rcases List.mem_cons.mp hmem with rfl | hmem
      · exact h.elim
      · exact ih h.tail hmem

theorem clean_eq_of_cleanComponents {p q : Path}
    (h : cleanComponents p.components = cleanComponents q.components) : p.clean = q.clean := by
  rw [clean, clean, h]

theorem clean_of_nil {p : Path} (h : cleanComponents p.components = []) : p.clean = ⟨"."⟩ := by
  rw [clean, h]

theorem cleanComponents_ne_here (p : Path) : cleanComponents p.components ≠ [.here] := by
  intro h
  have hsettled := isSettled_foldl_cleanStep (isSensible_components p)
  have hmem : Component.here ∈ cleanComponents p.components := by simp [h]
  exact here_not_mem_of_isSettled hsettled (List.mem_reverse.mp hmem)

/-- The normal form of a path determines its cleaned components. -/
theorem cleanComponents_eq_of_clean {p q : Path} (h : p.clean = q.clean) :
    cleanComponents p.components = cleanComponents q.components := by
  have hdot : Path.components ⟨"."⟩ = [.here] := by decide
  by_cases hp : cleanComponents p.components = []
  · by_cases hq : cleanComponents q.components = []
    · rw [hp, hq]
    · have hhere := components_clean hq
      rw [← h, clean_of_nil hp, hdot] at hhere
      exact absurd hhere.symm (cleanComponents_ne_here q)
  · by_cases hq : cleanComponents q.components = []
    · have hhere := components_clean hp
      rw [h, clean_of_nil hq, hdot] at hhere
      exact absurd hhere.symm (cleanComponents_ne_here p)
    · rw [← components_clean hp, ← components_clean hq, h]

theorem isAbsolute_eq_of_clean {p q : Path} (h : p.clean = q.clean) :
    p.isAbsolute = q.isAbsolute := by
  have hroot : ∀ r : Path, r.isAbsolute = true ↔ .root ∈ cleanComponents r.components := by
    intro r
    rw [isAbsolute_iff_root_mem, cleanComponents, List.mem_reverse, root_mem_foldl_cleanStep]
    simp
  rw [Bool.eq_iff_iff, hroot, hroot, cleanComponents_eq_of_clean h]

theorem isAbsolute_iff_head? (p : Path) :
    p.isAbsolute = true ↔ p.text.toList.head? = some '/' := by
  unfold isAbsolute
  split
  · rename_i rest hrest
    simp [hrest]
  · rename_i hother
    refine ⟨fun h => absurd h Bool.false_ne_true, fun hhead => ?_⟩
    obtain ⟨rest, hrest⟩ := List.head?_eq_some_iff.mp hhead
    exact absurd hrest (hother rest)

/-- A leading `.` does nothing, so only the steps of a relative path count. -/
theorem foldl_cleanStep_components {p : Path} (h : p.isAbsolute = false)
    (kept : List Component) :
    p.components.foldl cleanStep kept = (stepsOf p.text.toList).foldl cleanStep kept := by
  have hroot : .root ∉ p.components := by
    rw [← isAbsolute_iff_root_mem, h]
    simp
  rw [components, componentsOf_eq] at hroot ⊢
  rw [List.foldl_append]
  unfold leadOf at hroot ⊢
  split at hroot
  · simp at hroot
  · split <;> rfl

/-- A relative path goes on with the stack that its directory leaves. -/
theorem foldl_cleanStep_join {p : Path} (hp : p.isAbsolute = false) (cwd : Path) :
    (cwd.join p).components.foldl cleanStep []
      = p.components.foldl cleanStep (cwd.components.foldl cleanStep []) := by
  by_cases hcwd : cwd.text.toList = []
  · have hjoin : cwd.join p = p := by rw [join, hcwd, joinText_nil_left, String.ofList_toList]
    have hcomponents : cwd.components = [] := by rw [components, hcwd]; rfl
    rw [hjoin, hcomponents, List.foldl_nil]
  · have hhead : p.text.toList.head? ≠ some '/' := by
      rw [Ne, ← isAbsolute_iff_head?, hp]
      simp
    rw [components_join hcwd hhead, List.foldl_append, foldl_cleanStep_components hp]

/-- What a relative path is, as read from a directory, depends on its cleaned components only. -/
theorem cleanComponents_join {p : Path} (hp : p.isAbsolute = false) (cwd : Path) :
    cleanComponents (cwd.join p).components
      = ((cleanComponents p.components).foldl cleanStep
          (cwd.components.foldl cleanStep [])).reverse := by
  have hsteps : ∀ c ∈ stepsOf p.text.toList, c.IsProper := fun c => isProper_of_mem_stepsOf
  have hnil : IsSettled [] := trivial
  rw [cleanComponents, foldl_cleanStep_join hp, cleanComponents, foldl_cleanStep_components hp,
    foldl_cleanStep_components hp, foldl_cleanStep_foldl hsteps hnil]
  rfl

/-- **Paths with one normal form are the same file from every directory.** -/
theorem absolutize_congr {p q : Path} (h : p.clean = q.clean) (cwd : Path) :
    p.absolutize cwd = q.absolutize cwd := by
  have habs := isAbsolute_eq_of_clean h
  unfold absolutize
  cases hp : p.isAbsolute with
  | true =>
      rw [← habs, hp]
      exact h
  | false =>
      have hq : q.isAbsolute = false := by rw [← habs, hp]
      rw [hq, if_neg (by simp), if_neg (by simp)]
      refine clean_eq_of_cleanComponents ?_
      rw [cleanComponents_join hp, cleanComponents_join hq, cleanComponents_eq_of_clean h]

/-! ## Absolute paths -/

theorem isAbsolute_clean (p : Path) : p.clean.isAbsolute = p.isAbsolute :=
  isAbsolute_eq_of_clean (clean_clean p)

theorem exists_text_of_isAbsolute {p : Path} (h : p.isAbsolute = true) :
    ∃ rest, p.text.toList = '/' :: rest :=
  List.head?_eq_some_iff.mp ((isAbsolute_iff_head? p).mp h)

theorem isAbsolute_join {p : Path} (h : p.isAbsolute = true) (q : Path) :
    (p.join q).isAbsolute = true := by
  obtain ⟨rest, hp⟩ := exists_text_of_isAbsolute h
  have htext : ∃ more, joinText p.text.toList q.text.toList = '/' :: more := by
    rw [hp]
    unfold joinText
    split
    · exact ⟨_, by assumption⟩
    · split <;> exact ⟨_, rfl⟩
  obtain ⟨more, hmore⟩ := htext
  simp [join, isAbsolute, hmore]

/-- Read from an absolute directory, every path is absolute. -/
theorem isAbsolute_absolutize {cwd : Path} (h : cwd.isAbsolute = true) (p : Path) :
    (p.absolutize cwd).isAbsolute = true := by
  unfold absolutize
  split
  · rw [isAbsolute_clean]
    assumption
  · rw [isAbsolute_clean]
    exact isAbsolute_join h p

end Path

end ModuleGraph
