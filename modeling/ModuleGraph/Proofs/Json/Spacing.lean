import Mathlib.Data.List.DropRight
import ModuleGraph.Proofs.Json.Layout

set_option autoImplicit false

/-! # Blanks between tokens

Blanks around the marks of a text and at its ends mean nothing. To say so without the grammar, a
text is cut at its marks, those inside of strings apart (`cutMarks`), and the blanks at both ends
of every piece are left out (`skeleton`). Texts with the same skeleton differ in such blanks alone
(`Respaced`), and spell the same documents (`Spells.respaced`).
-/

namespace ModuleGraph.Json.Document

/-! ## Pieces -/

/-- The characters around values and between them. -/
def isMark (c : Char) : Bool := ['[', ']', '\x7b', '\x7d', ':', ','].contains c

def Mode.after (mode : Mode) (c : Char) : Mode := (mode.next c).getD mode

theorem Mode.after_eq {mode mode' : Mode} {c : Char} (h : mode.next c = some mode') :
    mode.after c = mode' := by
  rw [Mode.after, h, Option.getD_some]

theorem Mode.after_outside {c : Char} (h : c ≠ '"') : Mode.outside.after c = .outside := by
  rw [Mode.after, Mode.next, if_neg h]
  split <;> rfl

/-- A text cut at the marks outside of strings: the piece before the first mark, and every mark
with the piece behind it. -/
def cutMarks : Mode → List Char → List Char × List (Char × List Char)
  | _, [] => ([], [])
  | mode, c :: cs =>
    let (piece, cuts) := cutMarks (mode.after c) cs
    if mode = .outside ∧ isMark c = true then ([], (c, piece) :: cuts) else (c :: piece, cuts)

theorem quote_ne_of_isMark {c : Char} (h : isMark c = true) : c ≠ '"' := by
  rintro rfl
  exact absurd h (by decide)

theorem cutMarks_mark {c : Char} (h : isMark c = true) (cs : List Char) :
    cutMarks .outside (c :: cs) =
      ([], (c, (cutMarks .outside cs).1) :: (cutMarks .outside cs).2) := by
  rw [cutMarks, Mode.after_outside (quote_ne_of_isMark h)]
  exact if_pos ⟨rfl, h⟩

theorem cutMarks_other {mode : Mode} {c : Char} (h : ¬(mode = .outside ∧ isMark c = true))
    (cs : List Char) :
    cutMarks mode (c :: cs) =
      (c :: (cutMarks (mode.after c) cs).1, (cutMarks (mode.after c) cs).2) :=
  if_neg h

/-- A mark behind a text that ends outside of strings is one of the cuts. -/
theorem cutMarks_append {mode : Mode} {c : Char} (hc : isMark c = true) (ys : List Char) :
    ∀ {xs : List Char}, mode.scan xs = some .outside →
      cutMarks mode (xs ++ c :: ys) = ((cutMarks mode xs).1,
        (cutMarks mode xs).2 ++ (c, (cutMarks .outside ys).1) :: (cutMarks .outside ys).2)
  | [], h => by
      cases h
      exact cutMarks_mark hc ys
  | x :: xs, h => by
      rw [Mode.scan_cons] at h
      obtain ⟨mode', hnext, hscan⟩ := Option.bind_eq_some_iff.mp h
      have ih := cutMarks_append hc ys hscan
      by_cases hx : mode = .outside ∧ isMark x = true
      · obtain ⟨rfl, hmark⟩ := hx
        have houtside := Mode.after_outside (quote_ne_of_isMark hmark)
        rw [Mode.after_eq hnext] at houtside
        subst houtside
        rw [List.cons_append, cutMarks_mark hmark, cutMarks_mark hmark, ih, List.cons_append]
      · rw [List.cons_append, cutMarks_other hx, cutMarks_other hx, Mode.after_eq hnext, ih]

/-- Every cut comes from a mark of the text. -/
theorem exists_of_cutMarks {mode : Mode} {piece q : List Char} {c : Char}
    {as bs : List (Char × List Char)} :
    ∀ {cs : List Char}, cutMarks mode cs = (piece, as ++ (c, q) :: bs) →
      ∃ xs ys, cs = xs ++ c :: ys ∧ cutMarks mode xs = (piece, as) ∧
        cutMarks .outside ys = (q, bs)
  | [], h => by simp [cutMarks] at h
  | e :: cs, h => by
      by_cases he : mode = .outside ∧ isMark e = true
      · obtain ⟨rfl, hmark⟩ := he
        rw [cutMarks_mark hmark] at h
        obtain ⟨rfl, hcuts⟩ := Prod.mk.inj h
        -- The mark is the cut in question, or one of those before it.
        cases as with
        | nil =>
            obtain ⟨hhead, htail⟩ := List.cons.inj hcuts
            obtain ⟨rfl, hq⟩ := Prod.mk.inj hhead
            exact ⟨[], cs, rfl, rfl, Prod.ext hq htail⟩
        | cons a as =>
            obtain ⟨rfl, htail⟩ := List.cons.inj hcuts
            obtain ⟨xs, ys, rfl, hxs, hys⟩ := exists_of_cutMarks (Prod.ext rfl htail)
            exact ⟨e :: xs, ys, rfl, by rw [cutMarks_mark hmark, hxs], hys⟩
      · rw [cutMarks_other he] at h
        obtain ⟨rfl, hcuts⟩ := Prod.mk.inj h
        obtain ⟨xs, ys, rfl, hxs, hys⟩ := exists_of_cutMarks (Prod.ext rfl hcuts)
        exact ⟨e :: xs, ys, rfl, by rw [cutMarks_other he, hxs], hys⟩

/-! ### Texts without marks -/

/-- The text has no mark outside of its strings. -/
def Unmarked (mode : Mode) (cs : List Char) : Prop := (cutMarks mode cs).2 = []

theorem Unmarked.piece {mode : Mode} :
    ∀ {cs : List Char}, Unmarked mode cs → (cutMarks mode cs).1 = cs
  | [], _ => rfl
  | c :: cs, h => by
      by_cases hc : mode = .outside ∧ isMark c = true
      · obtain ⟨rfl, hmark⟩ := hc
        rw [Unmarked, cutMarks_mark hmark] at h
        cases h
      · rw [Unmarked, cutMarks_other hc] at h
        rw [cutMarks_other hc, Unmarked.piece h]

theorem Unmarked.cons {mode mode' : Mode} {c : Char} {cs : List Char}
    (hc : ¬(mode = .outside ∧ isMark c = true)) (hnext : mode.next c = some mode')
    (h : Unmarked mode' cs) : Unmarked mode (c :: cs) := by
  rw [Unmarked, cutMarks_other hc, Mode.after_eq hnext]
  exact h

theorem Unmarked.append {mode mode' : Mode} {ys : List Char} (hys : Unmarked mode' ys) :
    ∀ {xs : List Char}, Unmarked mode xs → mode.scan xs = some mode' → Unmarked mode (xs ++ ys)
  | [], _, hscan => by
      cases hscan
      exact hys
  | x :: xs, hxs, hscan => by
      rw [Mode.scan_cons] at hscan
      obtain ⟨next, hnext, hscan⟩ := Option.bind_eq_some_iff.mp hscan
      by_cases hx : mode = .outside ∧ isMark x = true
      · obtain ⟨rfl, hmark⟩ := hx
        rw [Unmarked, cutMarks_mark hmark] at hxs
        cases hxs
      · rw [Unmarked, cutMarks_other hx, Mode.after_eq hnext] at hxs
        exact .cons hx hnext (Unmarked.append hys hxs hscan)

theorem unmarked_of_plain {cs : List Char} (h : ∀ c ∈ cs, isMark c = false ∧ c ≠ '"') :
    Unmarked .outside cs := by
  induction cs with
  | nil => rfl
  | cons c cs ih =>
      rw [List.forall_mem_cons] at h
      have hc : ¬(Mode.outside = .outside ∧ isMark c = true) := by simp [h.1.1]
      rw [Unmarked, cutMarks_other hc, Mode.after_outside h.1.2]
      exact ih h.2

theorem Blank.unmarked {gap : List Char} (h : Blank gap) : Unmarked .outside gap := by
  refine unmarked_of_plain fun c hc => ?_
  have hblank := h c hc
  simp only [isBlank, Bool.or_eq_true, beq_iff_eq] at hblank
  rcases hblank with ((rfl | rfl) | rfl) | rfl <;> decide

/-! ### Blanks at the ends -/

/-- A text without the blanks at its ends. -/
def trim (cs : List Char) : List Char := (cs.dropWhile isBlank).rdropWhile isBlank

theorem exists_gaps (cs : List Char) :
    ∃ gap gap', Blank gap ∧ Blank gap' ∧ cs = gap ++ (trim cs ++ gap') := by
  obtain ⟨gap, hgap, hcs⟩ := exists_gap cs
  refine ⟨gap, (cs.dropWhile isBlank).rtakeWhile isBlank, hgap,
    fun c hc => List.mem_rtakeWhile_imp hc, ?_⟩
  rw [trim, List.rdropWhile_append_rtakeWhile]
  exact hcs

theorem Blank.rdropWhile_append {gap : List Char} (h : Blank gap) (cs : List Char) :
    (cs ++ gap).rdropWhile isBlank = cs.rdropWhile isBlank := by
  have hreverse : Blank gap.reverse := fun c hc => h c (List.mem_reverse.mp hc)
  rw [List.rdropWhile, List.reverse_append, hreverse.dropWhile_append, List.rdropWhile]

theorem trim_gaps {gap gap' : List Char} (h : Blank gap) (h' : Blank gap') (cs : List Char) :
    trim (gap ++ (cs ++ gap')) = trim cs := by
  rw [trim, h.dropWhile_append, List.dropWhile_append]
  split
  · rename_i hempty
    have hgap' : gap'.dropWhile isBlank = [] := by
      have hdrop := h'.dropWhile_append []
      rwa [List.append_nil] at hdrop
    rw [hgap', trim, List.isEmpty_iff.mp hempty]
  · rw [h'.rdropWhile_append, trim]

theorem Blank.trim_eq {gap : List Char} (h : Blank gap) : trim gap = [] := by
  simpa [trim] using trim_gaps h blank_nil []

theorem blank_of_trim {cs : List Char} (h : trim cs = []) : Blank cs := by
  obtain ⟨gap, gap', hgap, hgap', hcs⟩ := exists_gaps cs
  rw [h, List.nil_append] at hcs
  rw [hcs]
  exact hgap.append hgap'

theorem trim_eq_self {cs : List Char} (hfirst : ∀ c ∈ cs.head?, isBlank c = false)
    (hlast : ∀ c ∈ cs.getLast?, isBlank c = false) : trim cs = cs := by
  have hdrop : cs.dropWhile isBlank = cs := by
    cases cs with
    | nil => rfl
    | cons c cs => exact List.dropWhile_cons_of_neg (by simp [hfirst c rfl])
  rw [trim, hdrop, List.rdropWhile_eq_self_iff]
  intro hne hblank
  rw [hlast _ (List.getLast?_eq_some_getLast hne)] at hblank
  cases hblank

/-! ## Texts that differ in blanks -/

/-- A text cut at its marks, without the blanks at both ends of its pieces. -/
def skeleton (cs : List Char) : List Char × List (Char × List Char) :=
  (trim (cutMarks .outside cs).1, (cutMarks .outside cs).2.map (Prod.map id trim))

/-- The texts differ in nothing but blanks around their marks and at their ends. -/
def Respaced (cs ts : List Char) : Prop := skeleton ts = skeleton cs

instance (cs ts : List Char) : Decidable (Respaced cs ts) :=
  inferInstanceAs (Decidable (skeleton ts = skeleton cs))

theorem skeleton_of_unmarked {cs : List Char} (h : Unmarked .outside cs) :
    skeleton cs = (trim cs, []) := by
  rw [skeleton, h.piece, h, List.map_nil]

theorem skeleton_append {xs : List Char} (h : Balanced xs) {c : Char} (hc : isMark c = true)
    (ys : List Char) :
    skeleton (xs ++ c :: ys) =
      ((skeleton xs).1, (skeleton xs).2 ++ (c, (skeleton ys).1) :: (skeleton ys).2) := by
  rw [skeleton, cutMarks_append hc ys h, List.map_append, List.map_cons]
  rfl

/-- Behind the same marks, both texts go on alike. -/
theorem Respaced.split {xs ys ts : List Char} {c : Char} (h : Respaced (xs ++ c :: ys) ts)
    (hxs : Balanced xs) (hc : isMark c = true) :
    ∃ xs' ys', ts = xs' ++ c :: ys' ∧ Respaced xs xs' ∧ Respaced ys ys' := by
  rw [Respaced, skeleton_append hxs hc] at h
  obtain ⟨hpiece, hcuts⟩ := Prod.mk.inj h
  obtain ⟨as, bs, hsplit, has, hbs⟩ := List.map_eq_append_iff.mp hcuts
  obtain ⟨⟨e, q⟩, more, rfl, hmark, hmore⟩ := List.map_eq_cons_iff.mp hbs
  obtain ⟨rfl, hq⟩ := Prod.mk.inj hmark
  obtain ⟨xs', ys', rfl, hxs', hys'⟩ := exists_of_cutMarks (Prod.ext rfl hsplit)
  refine ⟨xs', ys', rfl, ?_, ?_⟩
  · rw [Respaced, skeleton, hxs']
    exact Prod.ext hpiece has
  · rw [Respaced, skeleton, hys']
    exact Prod.ext hq hmore

theorem Respaced.trim_eq {cs ts : List Char} (h : Respaced cs ts) (hcs : Unmarked .outside cs) :
    trim ts = trim cs := by
  rw [Respaced, skeleton_of_unmarked hcs] at h
  have hts : Unmarked .outside ts := List.map_eq_nil_iff.mp (Prod.mk.inj h).2
  rw [skeleton_of_unmarked hts] at h
  exact (Prod.mk.inj h).1

theorem Respaced.blank {gap ts : List Char} (h : Respaced gap ts) (hgap : Blank gap) :
    Blank ts := by
  refine blank_of_trim ?_
  rw [h.trim_eq hgap.unmarked, hgap.trim_eq]

/-- A text that no blank can be put into or taken out of. -/
structure Lexeme (cs : List Char) : Prop where
  unmarked : Unmarked .outside cs
  balanced : Balanced cs
  trimmed : trim cs = cs

/-- A lexeme stays as it is, whatever becomes of the blanks around it. -/
theorem Respaced.lexeme {gap gap' cs ts : List Char} (h : Respaced (gap ++ (cs ++ gap')) ts)
    (hcs : Lexeme cs) (hgap : Blank gap) (hgap' : Blank gap') :
    ∃ front back, Blank front ∧ Blank back ∧ ts = front ++ (cs ++ back) := by
  have hunmarked : Unmarked .outside (gap ++ (cs ++ gap')) :=
    (hgap'.unmarked.append hcs.unmarked hcs.balanced).append hgap.unmarked hgap.balanced
  obtain ⟨front, back, hfront, hback, hts⟩ := exists_gaps ts
  rw [h.trim_eq hunmarked, trim_gaps hgap hgap', hcs.trimmed] at hts
  exact ⟨front, back, hfront, hback, hts⟩

theorem lexeme_of_plain {cs : List Char}
    (h : ∀ c ∈ cs, isMark c = false ∧ c ≠ '"' ∧ c ≠ '/' ∧ isBlank c = false) : Lexeme cs where
  unmarked := unmarked_of_plain fun c hc => ⟨(h c hc).1, (h c hc).2.1⟩
  balanced := balanced_of_plain fun c hc => ⟨(h c hc).2.1, (h c hc).2.2.1⟩
  trimmed := trim_eq_self (fun c hc => (h c (List.mem_of_head? hc)).2.2.2)
    (fun c hc => (h c (List.mem_of_getLast? hc)).2.2.2)

theorem isNumeral_of_isMark {c : Char} (h : isMark c = true) : isNumeral c = false := by
  have hmarks := List.contains_iff_mem.mp h
  simp only [List.mem_cons, List.not_mem_nil, or_false] at hmarks
  rcases hmarks with rfl | rfl | rfl | rfl | rfl | rfl <;> decide

theorem lexeme_of_numerals {cs : List Char} (h : ∀ c ∈ cs, isNumeral c = true) : Lexeme cs := by
  refine lexeme_of_plain fun c hc => ?_
  have hne : isNumeral c ≠ false := by simp [h c hc]
  refine ⟨?_, ?_, ?_, ?_⟩
  · exact eq_false_of_ne_true fun hmark => hne (isNumeral_of_isMark hmark)
  · rintro rfl
    exact hne rfl
  · rintro rfl
    exact hne rfl
  · exact eq_false_of_ne_true fun hblank => hne (isNumeral_of_isBlank hblank)

theorem Body.unmarked {cs : List Char} (h : Body cs) : Unmarked .inside cs := by
  induction h with
  | close => rfl
  | plain hquote hback hcontrol _ ih =>
      refine .cons (by simp) ?_ ih
      rw [Mode.next, if_neg hcontrol, if_neg hquote, if_neg hback]
  | escape hcontrol _ ih =>
      refine .cons (by simp) rfl (.cons (by simp) ?_ ih)
      rw [Mode.next, if_neg hcontrol]

theorem Body.getLast? {cs : List Char} (h : Body cs) : cs.getLast? = some '"' := by
  induction h with
  | close => rfl
  | plain _ _ _ _ ih => simp [List.getLast?_cons, ih]
  | escape _ _ ih => simp [List.getLast?_cons, ih]

theorem SpellsText.lexeme {r : Reading} {cs : List Char} (h : SpellsText r cs) :
    Lexeme ('"' :: cs) where
  unmarked := .cons (by decide) rfl h.body.unmarked
  balanced := h.balanced
  trimmed := by
    refine trim_eq_self (by simp [isBlank]) ?_
    simp [List.getLast?_cons, h.body.getLast?, isBlank]

/-- The phrase is still spelled when the blanks of its text change; a value is taken together with
blanks around it. -/
def Phrase.Respaces (phrase : Phrase) (cs : List Char) : Prop :=
  match phrase with
  | .value d => ∀ gap gap' ts : List Char, Blank gap → Blank gap' →
      Respaced (gap ++ (cs ++ gap')) ts → Spells (.padded d) ts
  | phrase => ∀ ts : List Char, Respaced cs ts → Spells phrase ts

theorem Lexeme.respaces {d : Document} {cs : List Char} (hcs : Lexeme cs)
    (h : Spells (.value d) cs) : (Phrase.value d).Respaces cs := by
  intro gap gap' ts hgap hgap' hts
  obtain ⟨front, back, hfront, hback, rfl⟩ := hts.lexeme hcs hgap hgap'
  exact .padded hfront h hback

/-- Between two marks, with blanks before and behind them, only the inner text matters. -/
theorem Respaced.bracketed {o c : Char} {gap gap' cs ts : List Char}
    (h : Respaced (gap ++ (o :: (cs ++ [c]) ++ gap')) ts) (ho : isMark o = true)
    (hc : isMark c = true) (hcs : Balanced cs) (hgap : Blank gap) (hgap' : Blank gap') :
    ∃ front inner back, ts = front ++ (o :: (inner ++ [c]) ++ back) ∧ Blank front ∧
      Respaced cs inner ∧ Blank back := by
  have hshape : gap ++ (o :: (cs ++ [c]) ++ gap') = gap ++ o :: (cs ++ c :: gap') := by simp
  rw [hshape] at h
  obtain ⟨front, rest, rfl, hfront, hrest⟩ := h.split hgap.balanced ho
  obtain ⟨inner, back, rfl, hinner, hback⟩ := hrest.split hcs hc
  exact ⟨front, inner, back, by simp, hfront.blank hgap, hinner, hback.blank hgap'⟩

/-- The key of a member stays as it is, and the text behind its colon goes on alike. -/
theorem Respaced.keyed {key : Reading} {gap k gap' cs ts : List Char}
    (h : Respaced (gap ++ '"' :: (k ++ (gap' ++ ':' :: cs))) ts) (hkey : SpellsText key k)
    (hgap : Blank gap) (hgap' : Blank gap') :
    ∃ front back rest, ts = front ++ '"' :: (k ++ (back ++ ':' :: rest)) ∧ Blank front ∧
      Blank back ∧ Respaced cs rest := by
  have hshape : gap ++ '"' :: (k ++ (gap' ++ ':' :: cs))
      = gap ++ ('"' :: k ++ gap') ++ ':' :: cs := by simp
  have hbalanced : Balanced (gap ++ ('"' :: k ++ gap')) :=
    hgap.balanced.append (hkey.balanced.append hgap'.balanced)
  rw [hshape] at h
  obtain ⟨before, rest, rfl, hbefore, hrest⟩ := h.split hbalanced (by decide)
  obtain ⟨front, back, hfront, hback, rfl⟩ := hbefore.lexeme hkey.lexeme hgap hgap'
  exact ⟨front, back, rest, by simp, hfront, hback, hrest⟩

theorem Spells.respaces {phrase : Phrase} {cs : List Char} (h : Spells phrase cs) :
    phrase.Respaces cs := by
  -- Scalars and keys are lexemes; everything else is split at marks that the blanks cannot move.
  induction h with
  | null => exact (lexeme_of_plain (by simp [isMark, isBlank])).respaces .null
  | yes => exact (lexeme_of_plain (by simp [isMark, isBlank])).respaces .yes
  | no => exact (lexeme_of_plain (by simp [isMark, isBlank])).respaces .no
  | negative hn =>
      refine Lexeme.respaces (lexeme_of_numerals ?_) (.negative hn)
      exact List.forall_mem_cons.mpr ⟨by decide, hn.numerals⟩
  | unsigned hn => exact (lexeme_of_numerals hn.numerals).respaces (.unsigned hn)
  | text hs => exact hs.lexeme.respaces (.text hs)
  | emptyArray hinner =>
      intro gap gap' ts hgap hgap' hts
      obtain ⟨front, inner, back, rfl, hfront, hrespaced, hback⟩ :=
        hts.bracketed (by decide) (by decide) hinner.balanced hgap hgap'
      exact .padded hfront (.emptyArray (hrespaced.blank hinner)) hback
  | array hitems ih =>
      intro gap gap' ts hgap hgap' hts
      obtain ⟨front, inner, back, rfl, hfront, hrespaced, hback⟩ :=
        hts.bracketed (by decide) (by decide) hitems.balanced hgap hgap'
      exact .padded hfront (.array (ih inner hrespaced)) hback
  | emptyObject hinner =>
      intro gap gap' ts hgap hgap' hts
      obtain ⟨front, inner, back, rfl, hfront, hrespaced, hback⟩ :=
        hts.bracketed (by decide) (by decide) hinner.balanced hgap hgap'
      exact .padded hfront (.emptyObject (hrespaced.blank hinner)) hback
  | object hmembers ih =>
      intro gap gap' ts hgap hgap' hts
      obtain ⟨front, inner, back, rfl, hfront, hrespaced, hback⟩ :=
        hts.bracketed (by decide) (by decide) hmembers.balanced hgap hgap'
      exact .padded hfront (.object (ih inner hrespaced)) hback
  | padded hgap _ hgap' ih =>
      intro ts hts
      exact ih _ _ ts hgap hgap' hts
  | lastItem _ ih =>
      intro ts hts
      exact .lastItem (ih ts hts)
  | item hitem _ ih ihmore =>
      intro ts hts
      obtain ⟨first, rest, rfl, hfirst, hrest⟩ := hts.split hitem.balanced (by decide)
      exact .item (ih first hfirst) (ihmore rest hrest)
  | lastMember hgap hkey hgap' _ ih =>
      intro ts hts
      obtain ⟨front, back, value, rfl, hfront, hback, hvalue⟩ := hts.keyed hkey hgap hgap'
      exact .lastMember hfront hkey hback (ih value hvalue)
  | member hgap hkey hgap' hpadded _ ih ihmore =>
      intro ts hts
      obtain ⟨front, back, after, rfl, hfront, hback, hafter⟩ := hts.keyed hkey hgap hgap'
      obtain ⟨value, rest, rfl, hvalue, hrest⟩ := hafter.split hpadded.balanced (by decide)
      exact .member hfront hkey hback (ih value hvalue) (ihmore rest hrest)

/-- **Blanks around marks and at the ends of a text mean nothing.** -/
theorem Spells.respaced {d : Document} {cs ts : List Char} (h : Spells (.padded d) cs)
    (ht : Respaced cs ts) : Spells (.padded d) ts :=
  h.respaces ts ht

example : Respaced "[\"a b\",-1]".toList "\t[ \"a b\"\n, -1 ]".toList ∧
    ¬Respaced "[\"a b\",-1]".toList "[\"ab\",-1]".toList := by decide +kernel

end ModuleGraph.Json.Document
