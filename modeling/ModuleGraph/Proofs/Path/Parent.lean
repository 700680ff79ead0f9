import ModuleGraph.Proofs.Path.Rooted

set_option autoImplicit false

/-! # The directory of an absolute path

The parent of a path is found in its text, from the end: pieces that stand for no component are
passed over, the piece of the last component is cut off, and the pieces before it are put together
again. For an absolute path this leaves all components but the last one
(`exists_parent_of_isAbsolute`).
-/

namespace ModuleGraph

namespace Path

/-- A piece that stands for no component. -/
def isIdle (piece : List Char) : Bool := decide (piece = [] ∨ piece = ['.'])

theorem ofPiece?_eq_none_iff (piece : List Char) :
    Component.ofPiece? piece = none ↔ isIdle piece = true := by
  rw [isIdle, decide_eq_true_iff, Component.ofPiece?]
  split
  · simp [*]
  · split <;> simp [*]

/-- The first piece of a text is never dropped. -/
theorem dropIdle_snoc (pieces : List (List Char)) (first : List Char) :
    dropIdle (pieces ++ [first]) = pieces.dropWhile isIdle ++ [first] := by
  induction pieces with
  | nil => rfl
  | cons piece rest ih =>
      have hne : rest ++ [first] ≠ [] := by simp
      rw [List.cons_append, dropIdle, if_neg hne, ih, List.dropWhile_cons]
      by_cases hidle : piece = [] ∨ piece = ['.']
      · have hpiece : isIdle piece = true := decide_eq_true hidle
        rw [if_pos hidle, if_pos hpiece]
      · have hpiece : ¬isIdle piece = true := by simpa [isIdle] using hidle
        rw [if_neg hidle, if_neg hpiece, List.cons_append]

theorem filterMap_dropWhile_isIdle (pieces : List (List Char)) :
    (pieces.dropWhile isIdle).filterMap Component.ofPiece?
      = pieces.filterMap Component.ofPiece? := by
  induction pieces with
  | nil => rfl
  | cons piece rest ih =>
      rw [List.dropWhile_cons]
      split
      · rename_i hidle
        rw [ih, List.filterMap_cons_none ((ofPiece?_eq_none_iff piece).mpr hidle)]
      · rfl

/-- The piece of the last component comes first among the reversed pieces that count. -/
theorem dropWhile_of_filterMap {pieces : List (List Char)} {c : Component} {more : List Component}
    (h : pieces.filterMap Component.ofPiece? = c :: more) :
    ∃ piece before, pieces.dropWhile isIdle = piece :: before ∧
      before.filterMap Component.ofPiece? = more := by
  obtain ⟨idle, piece, before, rfl, hidle, hpiece, hbefore⟩ := List.filterMap_eq_cons_iff.mp h
  have hbusy : ¬isIdle piece = true := by
    rw [← ofPiece?_eq_none_iff, hpiece]
    simp
  refine ⟨piece, before, ?_, hbefore⟩
  rw [List.dropWhile_append_of_pos fun q hq => (ofPiece?_eq_none_iff q).mp (hidle q hq),
    List.dropWhile_cons_of_neg hbusy]

theorem intercalate_cons (piece : List Char) (pieces : List (List Char)) :
    ['/'].intercalate (piece :: pieces) = piece ++ rooted pieces := by
  induction pieces generalizing piece with
  | nil => simp
  | cons next rest ih =>
      rw [List.intercalate_cons_cons, ih, rooted_cons]
      simp

theorem componentsOf_rootedText {pieces : List (List Char)} (hslash : ∀ q ∈ pieces, '/' ∉ q) :
    componentsOf (rootedText pieces) = .root :: pieces.filterMap Component.ofPiece? := by
  cases pieces with
  | nil => rfl
  | cons piece rest =>
      rw [List.forall_mem_cons] at hslash
      rw [rootedText, if_neg (List.cons_ne_nil _ _), rooted_cons, componentsOf,
        splitSlash_append_rooted hslash.1 hslash.2]

/-- Reversed pieces behind the empty one before the root, put together. -/
theorem unsplit_snoc (pieces : List (List Char)) :
    unsplit (pieces ++ [[]]) = rooted pieces.reverse := by
  rw [unsplit, List.reverse_append, List.reverse_singleton, List.singleton_append,
    intercalate_cons, List.nil_append]

/-- The text before the piece of the last component, which is a slash if no piece counts. -/
theorem parentText?_eq {cs : List Char} {c : Component}
    (hlast : (componentsOf cs).getLast? = some c) (hc : c ≠ .root) {piece : List Char}
    {before : List (List Char)}
    (hdrop : dropIdle (splitSlash cs).reverse = piece :: (before ++ [[]])) :
    parentText? cs = some (rootedText (before.dropWhile isIdle).reverse) := by
  obtain ⟨next, more, hmore⟩ : ∃ next more, before ++ [[]] = next :: more :=
    List.exists_cons_of_ne_nil (by simp)
  rw [parentText?, hlast]
  cases c with
  | root => exact absurd rfl hc
  | _ =>
    simp only [hdrop, hmore]
    rw [← hmore, dropIdle_snoc]
    cases before.dropWhile isIdle with
    | nil => rfl
    | cons first rest =>
        have hne : (first :: rest).reverse ≠ [] := by simp
        rw [rootedText, if_neg hne, ← unsplit_snoc]
        split
        · rename_i hsingle
          simp at hsingle
        · rfl

/-- **The directory of an absolute path** has all of its components but the last one. -/
theorem exists_parent_of_isAbsolute {p : Path} (h : p.isAbsolute = true) {front : List Component}
    {c : Component} (hp : p.components = .root :: (front ++ [c])) :
    ∃ directory, p.parent? = some directory ∧ directory.components = .root :: front := by
  obtain ⟨rest, htext⟩ := exists_text_of_isAbsolute h
  have hsteps : (splitSlash rest).filterMap Component.ofPiece? = front ++ [c] := by
    rw [components, htext] at hp
    exact (List.cons.inj hp).2
  have hreverse : (splitSlash rest).reverse.filterMap Component.ofPiece? = c :: front.reverse := by
    rw [List.filterMap_reverse, hsteps, List.reverse_append, List.reverse_singleton,
      List.singleton_append]
  obtain ⟨piece, before, hdrop, hbefore⟩ := dropWhile_of_filterMap hreverse
  have hlast : (componentsOf p.text.toList).getLast? = some c := by
    have hcomponents : componentsOf p.text.toList = .root :: (front ++ [c]) := hp
    rw [hcomponents, ← List.cons_append, List.getLast?_concat]
  have hc : c ≠ .root := by
    have hsensible := isSensible_components p
    rw [hp] at hsensible
    rintro rfl
    exact hsensible.2 .root (by simp)
  have hpieces : (splitSlash p.text.toList).reverse = (splitSlash rest).reverse ++ [[]] := by
    rw [htext]
    exact List.reverse_cons
  have hkept : dropIdle (splitSlash p.text.toList).reverse = piece :: (before ++ [[]]) := by
    rw [hpieces, dropIdle_snoc, hdrop, List.cons_append]
  have hfront : (before.dropWhile isIdle).reverse.filterMap Component.ofPiece? = front := by
    rw [List.filterMap_reverse, filterMap_dropWhile_isIdle, hbefore, List.reverse_reverse]
  refine ⟨_, by rw [parent?, parentText?_eq hlast hc hkept]; rfl, ?_⟩
  rw [components, String.toList_ofList, ← hfront]
  refine componentsOf_rootedText fun q hq => ?_
  have hmem : q ∈ (splitSlash rest).reverse := by
    have htail : q ∈ (splitSlash rest).reverse.dropWhile isIdle := by
      rw [hdrop]
      exact List.mem_cons_of_mem _ ((List.dropWhile_sublist _).mem (List.mem_reverse.mp hq))
    exact (List.dropWhile_sublist _).mem htail
  exact not_mem_of_mem_splitSlash (List.mem_reverse.mp hmem)

end Path

end ModuleGraph
