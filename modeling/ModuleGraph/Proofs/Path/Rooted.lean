import ModuleGraph.Proofs.Path.Clean

set_option autoImplicit false

/-! # Clean absolute paths

A clean absolute path is a list of names, each written behind a slash (`exists_names`), so that
the names can be read off its text (`rooted_inj`). Cleaning an absolute path keeps its components
exactly when no `..` is among them (`components_clean_eq_iff`).
-/

namespace ModuleGraph

namespace Path

/-- A text as it can stand for a name between two slashes. -/
def IsName (n : List Char) : Prop := n ≠ [] ∧ '/' ∉ n ∧ n ≠ ['.'] ∧ n ≠ ['.', '.']

instance (n : List Char) : Decidable (IsName n) :=
  inferInstanceAs (Decidable (_ ∧ _ ∧ _ ∧ _))

def nameOf (n : List Char) : Component := .name (String.ofList n)

/-- Pieces of text, each behind a slash. -/
def rooted (pieces : List (List Char)) : List Char := pieces.flatMap ('/' :: ·)

@[simp] theorem rooted_nil : rooted [] = [] := rfl

@[simp] theorem rooted_cons (piece : List Char) (pieces : List (List Char)) :
    rooted (piece :: pieces) = '/' :: (piece ++ rooted pieces) := rfl

theorem rooted_append (xs ys : List (List Char)) : rooted (xs ++ ys) = rooted xs ++ rooted ys :=
  List.flatMap_append

theorem splitSlash_append_rooted {piece : List Char} {pieces : List (List Char)}
    (hpiece : '/' ∉ piece) (hpieces : ∀ q ∈ pieces, '/' ∉ q) :
    splitSlash (piece ++ rooted pieces) = piece :: pieces := by
  induction pieces generalizing piece with
  | nil => rw [rooted_nil, List.append_nil, splitSlash_of_not_mem hpiece]
  | cons next rest ih =>
      rw [List.forall_mem_cons] at hpieces
      rw [rooted_cons, splitSlash_append_slash, splitSlash_of_not_mem hpiece,
        ih hpieces.1 hpieces.2]
      rfl

theorem rooted_splitSlash (cs : List Char) : rooted (splitSlash cs) = '/' :: cs := by
  induction cs with
  | nil => rfl
  | cons c cs ih =>
      rw [splitSlash]
      split
      · rename_i hc
        rw [rooted_cons, ih, hc]
        rfl
      · cases hs : splitSlash cs with
        | nil => exact absurd hs (splitSlash_ne_nil cs)
        | cons piece pieces =>
            rw [hs, rooted_cons] at ih
            simp only [rooted_cons, List.cons_append, (List.cons.inj ih).2]

/-- The pieces behind the slashes of a text are known from the text. -/
theorem rooted_inj {xs ys : List (List Char)} (hxs : ∀ q ∈ xs, '/' ∉ q) (hys : ∀ q ∈ ys, '/' ∉ q)
    (h : rooted xs = rooted ys) : xs = ys := by
  have hsplit : ∀ zs : List (List Char), (∀ q ∈ zs, '/' ∉ q) → splitSlash (rooted zs) = [] :: zs := by
    intro zs hzs
    rw [← List.nil_append (rooted zs), splitSlash_append_rooted List.not_mem_nil hzs]
  have hpieces : [] :: xs = [] :: ys := by
    rw [← hsplit xs hxs, ← hsplit ys hys, h]
  exact (List.cons.inj hpieces).2

/-! ## Names -/

theorem isProper_nameOf {n : List Char} (h : IsName n) : (nameOf n).IsProper := by
  simpa [nameOf, Component.IsProper, IsName] using h

theorem ofPiece?_of_isName {n : List Char} (h : IsName n) :
    Component.ofPiece? n = some (nameOf n) := by
  have hpiece := Component.ofPiece?_text (isProper_nameOf h)
  rwa [nameOf, Component.text, String.toList_ofList] at hpiece

theorem nameOf_inj {m n : List Char} (h : nameOf m = nameOf n) : m = n := by
  have hnames := Component.name.inj h
  rw [← String.toList_ofList (l := m), hnames, String.toList_ofList]

theorem map_nameOf_eq_iff {xs ys : List (List Char)} : xs.map nameOf = ys.map nameOf ↔ xs = ys :=
  List.map_inj_right fun _ _ => nameOf_inj

theorem map_nameOf_inj {xs ys : List (List Char)} (h : xs.map nameOf = ys.map nameOf) : xs = ys :=
  map_nameOf_eq_iff.mp h

/-- Names are kept, each after the other. -/
theorem foldl_cleanStep_names (names : List (List Char)) (kept : List Component) :
    (names.map nameOf).foldl cleanStep kept = (names.map nameOf).reverse ++ kept := by
  induction names generalizing kept with
  | nil => rfl
  | cons n rest ih =>
      rw [List.map_cons, List.foldl_cons, ih]
      simp [cleanStep, nameOf]

/-- What is settled above a root are names. -/
theorem exists_names_of_isSettled {kept : List Component} (h : IsSettled kept)
    (hroot : .root ∈ kept) :
    ∃ names : List (List Char), (∀ n ∈ names, IsName n) ∧ kept.reverse = .root :: names.map nameOf := by
  induction kept with
  | nil => cases hroot
  | cons c rest ih =>
      cases c with
      | root =>
          obtain rfl : rest = [] := h
          exact ⟨[], by simp, rfl⟩
      | here => exact h.elim
      | up =>
          rcases List.mem_cons.mp hroot with heq | hmem
          · cases heq
          · cases h _ hmem
      | name s =>
          obtain ⟨names, hnames, hrest⟩ := ih h.2 (by simpa using hroot)
          refine ⟨names ++ [s.toList], ?_, ?_⟩
          · rw [List.forall_mem_append]
            exact ⟨hnames, by simpa [IsName, Component.IsProper] using h.1⟩
          · rw [List.reverse_cons, hrest]
            simp [nameOf]

/-! ## Cleaning an absolute path -/

theorem root_mem_cleanComponents {p : Path} (h : p.isAbsolute = true) :
    .root ∈ cleanComponents p.components := by
  rw [cleanComponents, List.mem_reverse, root_mem_foldl_cleanStep]
  exact Or.inr ((isAbsolute_iff_root_mem p).mp h)

theorem components_of_isAbsolute {p : Path} (h : p.isAbsolute = true) :
    p.components = .root :: stepsOf p.text.toList := by
  obtain ⟨rest, hrest⟩ := exists_text_of_isAbsolute h
  rw [components, componentsOf_eq, hrest]
  rfl

theorem components_clean_of_isAbsolute {p : Path} (h : p.isAbsolute = true) :
    p.clean.components = cleanComponents p.components :=
  components_clean (List.ne_nil_of_mem (root_mem_cleanComponents h))

/-- A cleaned absolute path has a root and names. -/
theorem exists_names_of_clean {p : Path} (h : p.isAbsolute = true) :
    ∃ names : List (List Char), (∀ n ∈ names, IsName n) ∧ p.clean.components = .root :: names.map nameOf := by
  rw [components_clean_of_isAbsolute h]
  have hroot := List.mem_reverse.mp (root_mem_cleanComponents h)
  exact exists_names_of_isSettled (isSettled_foldl_cleanStep (isSensible_components p)) hroot

/-- **Cleaning keeps the components of an absolute path exactly when no `..` is among them.** -/
theorem components_clean_eq_iff {p : Path} (h : p.isAbsolute = true) :
    p.clean.components = p.components ↔ .up ∉ p.components := by
  constructor
  · intro heq
    obtain ⟨names, -, hnames⟩ := exists_names_of_clean h
    rw [← heq, hnames]
    simp [nameOf]
  · intro hup
    have hroot := components_of_isAbsolute h
    -- The steps of a path are proper, and those that are not `..` are names.
    have hstep : ∀ c ∈ stepsOf p.text.toList, nameOf c.text.toList = c := by
      intro c hc
      have hproper := isProper_of_mem_stepsOf hc
      cases c with
      | root => exact hproper.elim
      | here => exact hproper.elim
      | up => exact absurd (hroot ▸ List.mem_cons_of_mem _ hc) hup
      | name s => simp [nameOf, Component.text]
    have hnames : stepsOf p.text.toList
        = ((stepsOf p.text.toList).map fun c => c.text.toList).map nameOf := by
      have hmap := List.map_congr_left (g := id) hstep
      rw [List.map_id] at hmap
      rw [List.map_map]
      exact hmap.symm
    rw [components_clean_of_isAbsolute h, cleanComponents, hroot, hnames, List.foldl_cons,
      foldl_cleanStep_names]
    simp [cleanStep]

/-! ## The text of a clean absolute path -/

theorem joinText_name {base n : List Char} (hn : IsName n) (hbase : base ≠ [])
    (hlast : base.getLast? ≠ some '/') : joinText base n = base ++ '/' :: n := by
  have hhead : ∀ rest, n ≠ '/' :: rest := by
    rintro rest rfl
    exact hn.2.1 List.mem_cons_self
  rw [joinText]
  · rw [if_neg (by simp [hbase, hlast])]
  · exact hhead

theorem getLast?_append_name (base : List Char) {n : List Char} (hn : IsName n) :
    (base ++ n).getLast? ≠ some '/' := by
  intro hlast
  rw [List.getLast?_append, Option.or_of_isSome (by simp [hn.1])] at hlast
  exact hn.2.1 (List.mem_of_getLast? hlast)

theorem foldl_joinText_names {names : List (List Char)} (hnames : ∀ n ∈ names, IsName n)
    {base : List Char} (hbase : base ≠ []) (hlast : base.getLast? ≠ some '/') :
    (names.map nameOf).foldl (fun text c => joinText text c.text.toList) base
      = base ++ rooted names := by
  induction names generalizing base with
  | nil => rw [rooted_nil, List.append_nil]; rfl
  | cons n rest ih =>
      rw [List.forall_mem_cons] at hnames
      have htext : (nameOf n).text.toList = n := String.toList_ofList
      have hnext : (base ++ '/' :: n).getLast? ≠ some '/' := by
        rw [← List.singleton_append, ← List.append_assoc]
        exact getLast?_append_name _ hnames.1
      rw [List.map_cons, List.foldl_cons, htext, joinText_name hnames.1 hbase hlast,
        ih hnames.2 (by simp) hnext]
      simp

/-- The text of a list of names, which is a slash where there is none. -/
def rootedText (names : List (List Char)) : List Char :=
  if names = [] then ['/'] else rooted names

theorem mem_rootedText {names : List (List Char)} {n : List Char} {c : Char} (hn : n ∈ names)
    (hc : c ∈ n) : c ∈ rootedText names := by
  rw [rootedText, if_neg (List.ne_nil_of_mem hn)]
  exact List.mem_flatMap.mpr ⟨n, hn, List.mem_cons_of_mem _ hc⟩

theorem mem_rootedText_of_mem {names : List (List Char)} {c : Char} (h : c ∈ rooted names) :
    c ∈ rootedText names := by
  obtain ⟨n, hn, -⟩ := List.mem_flatMap.mp h
  rwa [rootedText, if_neg (List.ne_nil_of_mem hn)]

theorem mem_rooted_of_mem {names : List (List Char)} {c : Char} (h : c ∈ rootedText names)
    (hc : c ≠ '/') : c ∈ rooted names := by
  unfold rootedText at h
  split at h
  · exact absurd (List.mem_singleton.mp h) hc
  · exact h

theorem rootedText_eq_slash_iff {names : List (List Char)} (h : ∀ n ∈ names, IsName n) :
    rootedText names = ['/'] ↔ names = [] := by
  cases names with
  | nil => exact ⟨fun _ => rfl, fun _ => rfl⟩
  | cons n rest =>
      have hn : n ≠ [] := (h n List.mem_cons_self).1
      simp [rootedText, hn]

theorem text_eq_slash_iff {p : Path} {names : List (List Char)} (h : ∀ n ∈ names, IsName n)
    (hp : p.text.toList = rootedText names) : p.text = "/" ↔ names = [] := by
  rw [← rootedText_eq_slash_iff h, ← hp, ← String.toList_inj]
  rfl

theorem toList_ofComponents {names : List (List Char)} (hnames : ∀ n ∈ names, IsName n) :
    (ofComponents (.root :: names.map nameOf)).text.toList = rootedText names := by
  rw [ofComponents, String.toList_ofList, List.foldl_cons, joinText_nil_left]
  cases names with
  | nil => rfl
  | cons n rest =>
      rw [List.forall_mem_cons] at hnames
      have htext : (nameOf n).text.toList = n := String.toList_ofList
      -- The slash of the root stands before the first name already.
      have hfirst : joinText Component.root.text.toList n = '/' :: n := by
        have hhead : ∀ rest, n ≠ '/' :: rest := by
          rintro rest rfl
          exact hnames.1.2.1 List.mem_cons_self
        rw [joinText]
        · rfl
        · exact hhead
      have hlast : ('/' :: n).getLast? ≠ some '/' := getLast?_append_name ['/'] hnames.1
      rw [List.map_cons, List.foldl_cons, htext, hfirst,
        foldl_joinText_names hnames.2 (by simp) hlast, rootedText, if_neg (by simp)]
      rfl

/-- **A clean absolute path is written from its names.** -/
theorem exists_names {p : Path} (habs : p.isAbsolute = true) (hclean : p.IsClean) :
    ∃ names : List (List Char), (∀ n ∈ names, IsName n) ∧ p.components = .root :: names.map nameOf ∧
      p.text.toList = rootedText names := by
  obtain ⟨names, hnames, hcomponents⟩ := exists_names_of_clean habs
  refine ⟨names, hnames, by rwa [hclean] at hcomponents, ?_⟩
  rw [components_clean_of_isAbsolute habs] at hcomponents
  have htext : p = ofComponents (.root :: names.map nameOf) := by
    rw [← hclean, clean, hcomponents]
  rw [htext, toList_ofComponents hnames]

end Path

end ModuleGraph
