import Mathlib.Data.List.Basic
import Mathlib.Data.List.Induction
import ModuleGraph.Proofs.Path.Rooted

set_option autoImplicit false

/-! # Entries in normal form

What a path is when it is read from an absolute working directory. `Keeps` says it without a stack:
of the steps below the root, a name is kept unless a `..` behind it takes it back, with everything
between them taken back as well (`Cancels`), and a `..` with no name left before it does nothing.
The kept names are the normal form (`keeps_iff`). It can be read from any directory, and from the
normal form of a directory a path reads as from the directory itself
(`absolutize_normal_form`).
-/

namespace ModuleGraph

namespace Path

/-! ## Joining -/

/-- A text with a slash at its end, where one is needed before the next step. -/
def slashed (base : List Char) : List Char :=
  if base = [] ∨ base.getLast? = some '/' then base else base ++ ['/']

theorem joinText_of_relative {step : List Char} (h : step.head? ≠ some '/') (base : List Char) :
    joinText base step = slashed base ++ step := by
  rw [joinText, slashed]
  · split
    · rfl
    · rw [List.append_assoc]
      rfl
  · rintro rest rfl
    exact h rfl

theorem slashed_slashed (base : List Char) : slashed (slashed base) = slashed base := by
  have hdone : slashed base = [] ∨ (slashed base).getLast? = some '/' := by
    rw [slashed]
    split
    · assumption
    · exact Or.inr (by simp)
  rw [slashed.eq_1 (slashed base), if_pos hdone]

/-- Whether a slash is needed shows at the last piece. -/
theorem slashed_append (front : List Char) {back : List Char} (h : back ≠ []) :
    slashed (front ++ back) = front ++ slashed back := by
  have hlast : (front ++ back).getLast? = back.getLast? := by
    rw [List.getLast?_append, Option.or_of_isSome (by simpa using h)]
  have hne : front ++ back ≠ [] := by simp [h]
  rw [slashed, slashed, hlast]
  simp only [h, hne, false_or]
  split
  · rfl
  · rw [List.append_assoc]

theorem head?_slashed_append {front : List Char} (hfront : front.head? ≠ some '/')
    {back : List Char} (hback : back.head? ≠ some '/') :
    (slashed front ++ back).head? ≠ some '/' := by
  cases front with
  | nil => exact hback
  | cons c rest =>
      rw [slashed]
      split
      · exact hfront
      · exact hfront

theorem joinText_assoc (front middle back : List Char) :
    joinText (joinText front middle) back = joinText front (joinText middle back) := by
  by_cases hback : back.head? = some '/'
  · obtain ⟨rest, rfl⟩ := List.head?_eq_some_iff.mp hback
    rfl
  by_cases hmiddle : middle.head? = some '/'
  · obtain ⟨rest, rfl⟩ := List.head?_eq_some_iff.mp hmiddle
    have hjoin : ∃ more, joinText ('/' :: rest) back = '/' :: more := by
      rw [joinText_of_relative hback, slashed]
      split <;> exact ⟨_, rfl⟩
    obtain ⟨more, hmore⟩ := hjoin
    rw [hmore, joinText, joinText, hmore]
  · rw [joinText_of_relative hback, joinText_of_relative hmiddle, joinText_of_relative hback,
      joinText_of_relative (head?_slashed_append hmiddle hback), ← List.append_assoc]
    by_cases hempty : middle = []
    · subst hempty
      have hnil : slashed [] = [] := rfl
      rw [hnil, List.append_nil, slashed_slashed]
    · rw [slashed_append _ hempty]

/-- **Directories are joined one after the other, from either end.** -/
theorem join_assoc (p q r : Path) : (p.join q).join r = p.join (q.join r) := by
  simp only [join, String.toList_ofList, joinText_assoc]

/-- An absolute path is the same from every directory. -/
theorem join_of_isAbsolute {q : Path} (h : q.isAbsolute = true) (p : Path) : p.join q = q := by
  obtain ⟨rest, hq⟩ := exists_text_of_isAbsolute h
  rw [join, hq, joinText, ← hq, String.ofList_toList]

theorem absolutize_eq (p cwd : Path) : p.absolutize cwd = (cwd.join p).clean := by
  unfold absolutize
  split
  · rename_i h
    rw [join_of_isAbsolute h]
  · rfl

/-! ## What the steps of a path keep -/

/-- Steps that lead back to where they start: each `..` takes back the nearest name before it that
is still there, and no name is left. -/
inductive Cancels : List Component → Prop where
  | nil : Cancels []
  | pair {name : String} {inner after : List Component} : Cancels inner → Cancels after →
      Cancels (.name name :: (inner ++ .up :: after))

/-- The names that are kept of the steps below the root. -/
inductive Keeps : List Component → List (List Char) → Prop where
  | root : Keeps [] []
  | name {steps : List Component} {names : List (List Char)} {n : List Char} : Keeps steps names →
      Keeps (steps ++ [nameOf n]) (names ++ [n])
  /-- A stretch that leads back keeps nothing. -/
  | back {steps stretch : List Component} {names : List (List Char)} : Keeps steps names →
      Cancels stretch → Keeps (steps ++ stretch) names
  /-- At the root a `..` does nothing. -/
  | atRoot {steps : List Component} : Keeps steps [] → Keeps (steps ++ [.up]) []

theorem Cancels.foldl_cleanStep {steps : List Component} (h : Cancels steps) :
    ∀ kept : List Component, steps.foldl cleanStep kept = kept := by
  induction h with
  | nil => exact fun kept => rfl
  | @pair name inner after _ _ ihinner ihafter =>
      intro kept
      have hpush : cleanStep kept (.name name) = .name name :: kept := rfl
      have hpop : cleanStep (.name name :: kept) .up = kept := rfl
      rw [List.foldl_cons, hpush, List.foldl_append, ihinner, List.foldl_cons, hpop, ihafter]

theorem Cancels.append {steps steps' : List Component} (h : Cancels steps) (h' : Cancels steps') :
    Cancels (steps ++ steps') := by
  induction h with
  | nil => exact h'
  | pair hinner _ _ ihafter =>
      rw [List.cons_append, List.append_assoc, List.cons_append]
      exact .pair hinner ihafter

/-- The stack above the root, last name first. -/
def stackOf (names : List (List Char)) : List Component := (names.map nameOf).reverse ++ [.root]

theorem stackOf_snoc (names : List (List Char)) (n : List Char) :
    stackOf (names ++ [n]) = nameOf n :: stackOf names := by
  simp [stackOf]

theorem Keeps.foldl_cleanStep {steps : List Component} {names : List (List Char)}
    (h : Keeps steps names) : steps.foldl cleanStep [.root] = stackOf names := by
  induction h with
  | root => rfl
  | name _ ih =>
      rw [List.foldl_append, ih, stackOf_snoc]
      rfl
  | back _ hstretch ih => rw [List.foldl_append, ih, hstretch.foldl_cleanStep]
  | atRoot _ ih =>
      rw [List.foldl_append, ih]
      rfl

/-- The last name that is kept, and a stretch behind it that leads back to it. -/
theorem Keeps.exists_last {steps : List Component} {names : List (List Char)}
    (h : Keeps steps names) : ∀ {front : List (List Char)} {n : List Char}, names = front ++ [n] →
      ∃ before stretch, steps = before ++ nameOf n :: stretch ∧ Keeps before front ∧
        Cancels stretch := by
  induction h with
  | root => exact fun heq => absurd heq (by simp)
  | atRoot => exact fun heq => absurd heq (by simp)
  | @name steps names n hsteps _ =>
      intro front m heq
      obtain ⟨rfl, hlast⟩ := List.append_inj' heq rfl
      obtain rfl := List.singleton_inj.mp hlast
      exact ⟨steps, [], rfl, hsteps, .nil⟩
  | @back steps stretch names _ hstretch ih =>
      intro front n heq
      obtain ⟨before, inner, rfl, hbefore, hinner⟩ := ih heq
      refine ⟨before, inner ++ stretch, ?_, hbefore, hinner.append hstretch⟩
      rw [List.append_assoc, List.cons_append]

/-- A `..` takes back the last name, or does nothing at the root. -/
theorem Keeps.up {steps : List Component} {names : List (List Char)} (h : Keeps steps names) :
    Keeps (steps ++ [.up]) names.dropLast := by
  rcases List.eq_nil_or_concat' names with rfl | ⟨front, n, rfl⟩
  · exact h.atRoot
  · obtain ⟨before, stretch, rfl, hbefore, hstretch⟩ := h.exists_last rfl
    have hpair : Cancels (nameOf n :: (stretch ++ .up :: [])) := .pair hstretch .nil
    rw [List.dropLast_concat, List.append_assoc, List.cons_append]
    exact hbefore.back hpair

theorem nameOf_toList (s : String) : nameOf s.toList = .name s := by
  rw [nameOf, String.ofList_toList]

/-- Some names are kept of every list of steps. -/
theorem exists_keeps {steps : List Component} (h : ∀ c ∈ steps, c.IsProper) :
    ∃ names, Keeps steps names := by
  induction steps using List.reverseRecOn with
  | nil => exact ⟨[], .root⟩
  | append_singleton steps c ih =>
      rw [List.forall_mem_append, List.forall_mem_singleton] at h
      obtain ⟨names, hnames⟩ := ih h.1
      cases c with
      | root => exact h.2.elim
      | here => exact h.2.elim
      | up => exact ⟨_, hnames.up⟩
      | name s =>
          rw [← nameOf_toList]
          exact ⟨_, hnames.name⟩

theorem stackOf_inj {names names' : List (List Char)} (h : stackOf names = stackOf names') :
    names = names' :=
  map_nameOf_inj (List.reverse_inj.mp (List.append_cancel_right h))

/-- **The kept names are those that cleaning leaves above the root.** -/
theorem keeps_iff {steps : List Component} (h : ∀ c ∈ steps, c.IsProper)
    {names : List (List Char)} :
    Keeps steps names ↔ steps.foldl cleanStep [.root] = stackOf names := by
  refine ⟨Keeps.foldl_cleanStep, fun hfold => ?_⟩
  obtain ⟨names', hnames'⟩ := exists_keeps h
  rw [hnames'.foldl_cleanStep] at hfold
  exact stackOf_inj hfold ▸ hnames'

/-! ## The normal form -/

theorem components_clean_iff_keeps {p : Path} (h : p.isAbsolute = true)
    (names : List (List Char)) :
    p.clean.components = .root :: names.map nameOf ↔ Keeps (stepsOf p.text.toList) names := by
  have hpush : cleanStep [] .root = [.root] := rfl
  have hstack : (stackOf names).reverse = .root :: names.map nameOf := by simp [stackOf]
  rw [keeps_iff fun c => isProper_of_mem_stepsOf, components_clean_of_isAbsolute h,
    components_of_isAbsolute h, cleanComponents, List.foldl_cons, hpush, ← hstack,
    List.reverse_inj]

/-- From the normal form of an absolute directory a path reads as from the directory. -/
theorem clean_join_clean {p : Path} (hp : p.isAbsolute = true) {q : Path}
    (hq : q.isAbsolute = false) : (p.clean.join q).clean = (p.join q).clean := by
  have hsettled := isSettled_foldl_cleanStep (isSensible_components p)
  have hstack : p.clean.components.foldl cleanStep [] = p.components.foldl cleanStep [] := by
    rw [components_clean_of_isAbsolute hp, cleanComponents, foldl_cleanStep_reverse hsettled]
  refine clean_eq_of_cleanComponents ?_
  rw [cleanComponents_join hq, cleanComponents_join hq, hstack]

theorem getLast?_rootedText {names : List (List Char)} (h : ∀ n ∈ names, IsName n)
    (hne : names ≠ []) : (rootedText names).getLast? ≠ some '/' := by
  obtain ⟨front, n, rfl⟩ := (List.eq_nil_or_concat' names).resolve_left hne
  have hn : IsName n := h n (by simp)
  have htext : rootedText (front ++ [n]) = (rooted front ++ ['/']) ++ n := by
    rw [rootedText, if_neg hne, rooted_append, rooted_cons, rooted_nil]
    simp
  rw [htext]
  exact getLast?_append_name _ hn

/-- **Entries have one normal form.** Read from an absolute directory, every path is absolute. Its
text is a slash, or names with a slash before each of them, so that it has no `.`, no `..`, no empty
piece and no slash at its end. It is the same read from any directory and for any spelling with the
same components. A relative path reads from it as the two paths joined do. Its names are those that
are kept of the steps: a `..` takes back the nearest name before it that is still there, and does
nothing at the root. -/
theorem absolutize_normal_form {cwd : Path} (hcwd : cwd.isAbsolute = true) (p : Path) :
    (p.absolutize cwd).isAbsolute = true ∧
    (∃ names, (∀ n ∈ names, IsName n) ∧ (p.absolutize cwd).text.toList = rootedText names) ∧
    ((p.absolutize cwd).text.toList.getLast? = some '/' → (p.absolutize cwd).text = "/") ∧
    (∀ cwd', (p.absolutize cwd).absolutize cwd' = p.absolutize cwd) ∧
    (∀ p' : Path, p'.same p = true → p'.absolutize cwd = p.absolutize cwd) ∧
    (∀ q : Path, q.isAbsolute = false →
      q.absolutize (p.absolutize cwd) = (p.join q).absolutize cwd) ∧
    ∃ steps, (cwd.join p).components = .root :: steps ∧
      ∀ names, Keeps steps names ↔ (p.absolutize cwd).components = .root :: names.map nameOf := by
  have habsolute := isAbsolute_absolutize hcwd p
  have hjoin : (cwd.join p).isAbsolute = true := isAbsolute_join hcwd p
  obtain ⟨names, hnames, -, htext⟩ := exists_names habsolute (isClean_absolutize p cwd)
  refine ⟨habsolute, ⟨names, hnames, htext⟩, fun hlast => ?_, fun cwd' => ?_, fun p' hp' => ?_,
    fun q hq => ?_, stepsOf (cwd.join p).text.toList, components_of_isAbsolute hjoin,
    fun names' => ?_⟩
  · rw [text_eq_slash_iff hnames htext]
    by_contra hne
    rw [htext] at hlast
    exact getLast?_rootedText hnames hne hlast
  · rw [absolutize, if_pos habsolute]
    exact isClean_absolutize p cwd
  · exact absolutize_congr (clean_congr (of_decide_eq_true hp')) cwd
  · rw [absolutize_eq q, absolutize_eq p, absolutize_eq (p.join q), ← join_assoc,
      clean_join_clean hjoin hq]
  · rw [absolutize_eq, components_clean_iff_keeps hjoin]

theorem absolutize_normal_form_sample :
    (Path.mk "/repo/").isAbsolute = true ∧
    (Path.mk "./../.././src//a/../b.js/").absolutize ⟨"/repo/"⟩ = ⟨"/src/b.js"⟩ ∧
    (Path.mk "src/b.js").same ⟨"src//./b.js/"⟩ = true ∧
    (Path.mk "src/b.js").absolutize ⟨"/repo/"⟩ = (Path.mk "src//./b.js/").absolutize ⟨"/repo/"⟩ ∧
    (Path.mk "../c").isAbsolute = false ∧
    (Path.mk "../c").absolutize ((Path.mk "src").absolutize ⟨"/repo/"⟩)
      = (Path.mk "src/../c").absolutize ⟨"/repo/"⟩ := by
  have hcwd : (Path.mk "/repo/").isAbsolute = true := by decide
  refine ⟨hcwd, by decide, by decide, ?_, by decide, ?_⟩
  · exact (absolutize_normal_form hcwd ⟨"src//./b.js/"⟩).2.2.2.2.1 ⟨"src/b.js"⟩ (by decide)
  · exact (absolutize_normal_form hcwd ⟨"src"⟩).2.2.2.2.2.1 ⟨"../c"⟩ (by decide)

end Path

end ModuleGraph
