import ModuleGraph.Proofs.Json.Reading

set_option autoImplicit false

/-! # Quotes and line ends of JSON texts

What is known about the text of a document without reading it. Going through the text and keeping
track of quotes and backslashes only, one meets slashes inside strings alone, and stands outside
of every string at its end (`Spells.balanced`) and at the end of each of its lines
(`balanced_feed_iff`). Line ends stand between tokens, so that leaving some of them out leaves a
text of the same document (`Spells.thinned`).
-/

namespace ModuleGraph.Json

namespace Document

/-! ## Quotes -/

/-- Where the next character of a text stands. -/
inductive Mode where
  | outside
  | inside
  /-- Inside a string, behind a backslash. -/
  | escaped
deriving DecidableEq, Repr

/-- Where one stands behind a character, none if it cannot stand there: a slash outside of
strings, a control character inside. -/
def Mode.next : Mode → Char → Option Mode
  | .outside, c => if c = '"' then some .inside else if c = '/' then none else some .outside
  | .inside, c =>
    if c < ' ' then none
    else if c = '"' then some .outside
    else if c = '\\' then some .escaped
    else some .inside
  | .escaped, c => if c < ' ' then none else some .inside

/-- Where one stands behind a text. -/
def Mode.scan (mode : Mode) (cs : List Char) : Option Mode := cs.foldlM Mode.next mode

theorem Mode.scan_append (mode : Mode) (cs ds : List Char) :
    mode.scan (cs ++ ds) = (mode.scan cs).bind fun m => m.scan ds :=
  List.foldlM_append

theorem Mode.scan_cons (mode : Mode) (c : Char) (cs : List Char) :
    mode.scan (c :: cs) = (mode.next c).bind fun m => m.scan cs :=
  List.foldlM_cons

/-- Every string of the text ends in it. -/
def Balanced (cs : List Char) : Prop := Mode.outside.scan cs = some .outside

instance (cs : List Char) : Decidable (Balanced cs) :=
  inferInstanceAs (Decidable (Mode.outside.scan cs = some .outside))

theorem Balanced.append {cs ds : List Char} (h : Balanced cs) (h' : Balanced ds) :
    Balanced (cs ++ ds) := by
  rw [Balanced, Mode.scan_append, h]
  exact h'

theorem Balanced.cons {c : Char} {cs : List Char} (hquote : c ≠ '"') (hslash : c ≠ '/')
    (h : Balanced cs) : Balanced (c :: cs) := by
  rw [Balanced, Mode.scan_cons, Mode.next, if_neg hquote, if_neg hslash]
  exact h

theorem balanced_of_plain {cs : List Char} (h : ∀ c ∈ cs, c ≠ '"' ∧ c ≠ '/') : Balanced cs := by
  induction cs with
  | nil => rfl
  | cons c cs ih =>
      rw [List.forall_mem_cons] at h
      exact (ih h.2).cons h.1.1 h.1.2

theorem Blank.balanced {gap : List Char} (h : Blank gap) : Balanced gap := by
  refine balanced_of_plain fun c hc => ?_
  have hblank := h c hc
  exact ⟨by rintro rfl; exact absurd hblank (by decide),
    by rintro rfl; exact absurd hblank (by decide)⟩

theorem SpellsNumber.balanced {negative : Bool} {n : Decimal} {cs : List Char}
    (h : SpellsNumber negative n cs) : Balanced cs := by
  refine balanced_of_plain fun c hc => ?_
  have hnumeral := h.numerals c hc
  exact ⟨by rintro rfl; exact absurd hnumeral (by decide),
    by rintro rfl; exact absurd hnumeral (by decide)⟩

theorem Body.scan {cs : List Char} (h : Body cs) : Mode.inside.scan cs = some .outside := by
  induction h with
  | close => rfl
  | plain hquote hback hcontrol _ ih =>
      rw [Mode.scan_cons, Mode.next, if_neg hcontrol, if_neg hquote, if_neg hback]
      exact ih
  | @escape c cs hcontrol _ ih =>
      have hstep : Mode.escaped.scan (c :: cs) = some .outside := by
        rw [Mode.scan_cons, Mode.next, if_neg hcontrol]
        exact ih
      exact hstep

theorem SpellsText.balanced {r : Reading} {cs : List Char} (h : SpellsText r cs) :
    Balanced ('"' :: cs) :=
  h.body.scan

/-- **The text of a document is balanced.** -/
theorem Spells.balanced {phrase : Phrase} {cs : List Char} (h : Spells phrase cs) :
    Balanced cs := by
  induction h with
  | null => decide
  | yes => decide
  | no => decide
  | negative hn => exact hn.balanced.cons (by decide) (by decide)
  | unsigned hn => exact hn.balanced
  | text ht => exact ht.balanced
  | emptyArray hgap => exact (hgap.balanced.append (by decide)).cons (by decide) (by decide)
  | array _ ih => exact (ih.append (by decide)).cons (by decide) (by decide)
  | emptyObject hgap => exact (hgap.balanced.append (by decide)).cons (by decide) (by decide)
  | object _ ih => exact (ih.append (by decide)).cons (by decide) (by decide)
  | padded hgap _ hgap' ih => exact hgap.balanced.append (ih.append hgap'.balanced)
  | lastItem _ ih => exact ih
  | item _ _ ih ihmore => exact ih.append (ihmore.cons (by decide) (by decide))
  | lastMember hgap hkey hgap' _ ih =>
      have hvalue := hgap'.balanced.append (ih.cons (c := ':') (by decide) (by decide))
      exact hgap.balanced.append (hkey.balanced.append hvalue)
  | member hgap hkey hgap' _ _ ih ihmore =>
      have hrest := ih.append (ihmore.cons (c := ',') (by decide) (by decide))
      have hvalue := hgap'.balanced.append (hrest.cons (c := ':') (by decide) (by decide))
      exact hgap.balanced.append (hkey.balanced.append hvalue)

theorem Mode.next_feed {mode mode' : Mode} (h : mode.next '\n' = some mode') :
    mode = .outside ∧ mode' = .outside := by
  cases mode <;> cases h
  exact ⟨rfl, rfl⟩

theorem Mode.next_slash {mode mode' : Mode} (h : mode.next '/' = some mode') :
    mode ≠ .outside ∧ mode' = .inside := by
  cases mode <;> cases h <;> exact ⟨by decide, rfl⟩

/-- A text that ends well, at one of its characters. -/
theorem Balanced.split {cs ds : List Char} {c : Char} (h : Balanced (cs ++ c :: ds)) :
    ∃ mode mode' : Mode, Mode.outside.scan cs = some mode ∧ mode.next c = some mode' ∧
      mode'.scan ds = some .outside := by
  rw [Balanced, Mode.scan_append] at h
  obtain ⟨mode, hmode, hrest⟩ := Option.bind_eq_some_iff.mp h
  rw [Mode.scan_cons] at hrest
  obtain ⟨mode', hmode', hend⟩ := Option.bind_eq_some_iff.mp hrest
  exact ⟨mode, mode', hmode, hmode', hend⟩

/-- Texts are balanced line by line. -/
theorem balanced_feed_iff {line more : List Char} :
    Balanced (line ++ '\n' :: more) ↔ Balanced line ∧ Balanced more := by
  constructor
  · intro h
    obtain ⟨mode, mode', hline, hfeed, hmore⟩ := h.split
    obtain ⟨rfl, rfl⟩ := Mode.next_feed hfeed
    exact ⟨hline, hmore⟩
  · rintro ⟨hline, hmore⟩
    exact hline.append (hmore.cons (by decide) (by decide))

/-- A slash stands inside of a string. -/
theorem Balanced.slash {cs ds : List Char} (h : Balanced (cs ++ '/' :: ds)) :
    ¬Balanced cs ∧ Mode.inside.scan ds = some .outside := by
  obtain ⟨mode, mode', hcs, hslash, hds⟩ := h.split
  obtain ⟨hmode, rfl⟩ := Mode.next_slash hslash
  refine ⟨fun hbalanced => hmode ?_, hds⟩
  rw [Balanced, hcs] at hbalanced
  exact Option.some.inj hbalanced

/-! ## Line ends -/

/-- A text with some of its line ends left out. -/
inductive Thinned : List Char → List Char → Prop where
  | nil : Thinned [] []
  | keep {c : Char} {cs ds : List Char} : Thinned cs ds → Thinned (c :: cs) (c :: ds)
  | drop {c : Char} {cs ds : List Char} : c = '\r' ∨ c = '\n' → Thinned cs ds →
      Thinned (c :: cs) ds

theorem Thinned.refl (cs : List Char) : Thinned cs cs := by
  induction cs with
  | nil => exact .nil
  | cons c cs ih => exact .keep ih

theorem Thinned.append {as bs cs ds : List Char} (h : Thinned as bs) (h' : Thinned cs ds) :
    Thinned (as ++ cs) (bs ++ ds) := by
  induction h with
  | nil => exact h'
  | keep _ ih => exact .keep ih
  | drop hend _ ih => exact .drop hend ih

theorem Thinned.of_append {cs ds ts : List Char} (h : Thinned (cs ++ ds) ts) :
    ∃ cs' ds', ts = cs' ++ ds' ∧ Thinned cs cs' ∧ Thinned ds ds' := by
  induction cs generalizing ts with
  | nil => exact ⟨[], ts, rfl, .nil, h⟩
  | cons c cs ih =>
      cases h with
      | keep h =>
          obtain ⟨cs', ds', rfl, hcs, hds⟩ := ih h
          exact ⟨c :: cs', ds', rfl, .keep hcs, hds⟩
      | drop hend h =>
          obtain ⟨cs', ds', rfl, hcs, hds⟩ := ih h
          exact ⟨cs', ds', rfl, .drop hend hcs, hds⟩

theorem Thinned.of_cons {c : Char} {cs ts : List Char} (h : Thinned (c :: cs) ts)
    (hreturn : c ≠ '\r') (hfeed : c ≠ '\n') : ∃ ds, ts = c :: ds ∧ Thinned cs ds := by
  cases h with
  | keep h => exact ⟨_, rfl, h⟩
  | drop hend _ =>
      rcases hend with rfl | rfl
      · exact absurd rfl hreturn
      · exact absurd rfl hfeed

theorem Thinned.eq {cs ts : List Char} (h : Thinned cs ts) (hreturn : '\r' ∉ cs)
    (hfeed : '\n' ∉ cs) : ts = cs := by
  induction h with
  | nil => rfl
  | keep _ ih =>
      rw [ih (List.not_mem_of_not_mem_cons hreturn) (List.not_mem_of_not_mem_cons hfeed)]
  | drop hend _ _ =>
      rcases hend with rfl | rfl
      · exact absurd List.mem_cons_self hreturn
      · exact absurd List.mem_cons_self hfeed

theorem Blank.thinned {gap ts : List Char} (h : Blank gap) (ht : Thinned gap ts) : Blank ts := by
  induction ht with
  | nil => exact h
  | keep _ ih =>
      rw [Blank, List.forall_mem_cons] at h ⊢
      exact ⟨h.1, ih h.2⟩
  | drop _ _ ih =>
      rw [Blank, List.forall_mem_cons] at h
      exact ih h.2

theorem SpellsNumber.thinned {negative : Bool} {n : Decimal} {cs ts : List Char}
    (h : SpellsNumber negative n cs) (ht : Thinned cs ts) : ts = cs :=
  ht.eq (fun hmem => absurd (h.numerals _ hmem) (by decide))
    (fun hmem => absurd (h.numerals _ hmem) (by decide))

theorem SpellsText.thinned {r : Reading} {cs ts : List Char} (h : SpellsText r cs)
    (ht : Thinned cs ts) : ts = cs :=
  ht.eq (fun hmem => absurd (h.body.not_control _ hmem) (by decide))
    (fun hmem => absurd (h.body.not_control _ hmem) (by decide))

/-- **Line ends may be left out of the text of a document.** -/
theorem Spells.thinned {phrase : Phrase} {cs : List Char} (h : Spells phrase cs) :
    ∀ {ts : List Char}, Thinned cs ts → Spells phrase ts := by
  induction h with
  | null =>
      intro ts ht
      rw [ht.eq (by decide) (by decide)]
      exact .null
  | yes =>
      intro ts ht
      rw [ht.eq (by decide) (by decide)]
      exact .yes
  | no =>
      intro ts ht
      rw [ht.eq (by decide) (by decide)]
      exact .no
  | negative hn =>
      intro ts ht
      obtain ⟨digits, rfl, hdigits⟩ := ht.of_cons (by decide) (by decide)
      rw [hn.thinned hdigits]
      exact .negative hn
  | unsigned hn =>
      intro ts ht
      rw [hn.thinned ht]
      exact .unsigned hn
  | text hs =>
      intro ts ht
      obtain ⟨body, rfl, hbody⟩ := ht.of_cons (by decide) (by decide)
      rw [hs.thinned hbody]
      exact .text hs
  | emptyArray hgap =>
      intro ts ht
      obtain ⟨rest, rfl, hrest⟩ := ht.of_cons (by decide) (by decide)
      obtain ⟨gap, close, rfl, htgap, hclose⟩ := hrest.of_append
      rw [hclose.eq (by decide) (by decide)]
      exact .emptyArray (hgap.thinned htgap)
  | array _ ih =>
      intro ts ht
      obtain ⟨rest, rfl, hrest⟩ := ht.of_cons (by decide) (by decide)
      obtain ⟨inner, close, rfl, hinner, hclose⟩ := hrest.of_append
      rw [hclose.eq (by decide) (by decide)]
      exact .array (ih hinner)
  | emptyObject hgap =>
      intro ts ht
      obtain ⟨rest, rfl, hrest⟩ := ht.of_cons (by decide) (by decide)
      obtain ⟨gap, close, rfl, htgap, hclose⟩ := hrest.of_append
      rw [hclose.eq (by decide) (by decide)]
      exact .emptyObject (hgap.thinned htgap)
  | object _ ih =>
      intro ts ht
      obtain ⟨rest, rfl, hrest⟩ := ht.of_cons (by decide) (by decide)
      obtain ⟨inner, close, rfl, hinner, hclose⟩ := hrest.of_append
      rw [hclose.eq (by decide) (by decide)]
      exact .object (ih hinner)
  | padded hgap _ hgap' ih =>
      intro ts ht
      obtain ⟨gap, rest, rfl, htgap, hrest⟩ := ht.of_append
      obtain ⟨inner, gap', rfl, hinner, htgap'⟩ := hrest.of_append
      exact .padded (hgap.thinned htgap) (ih hinner) (hgap'.thinned htgap')
  | lastItem _ ih =>
      intro ts ht
      exact .lastItem (ih ht)
  | item _ _ ih ihmore =>
      intro ts ht
      obtain ⟨inner, rest, rfl, hinner, hrest⟩ := ht.of_append
      obtain ⟨more, rfl, hmore⟩ := hrest.of_cons (by decide) (by decide)
      exact .item (ih hinner) (ihmore hmore)
  | lastMember hgap hkey hgap' _ ih =>
      intro ts ht
      obtain ⟨gap, quoted, rfl, htgap, hquoted⟩ := ht.of_append
      obtain ⟨body, rfl, hbody⟩ := hquoted.of_cons (by decide) (by decide)
      obtain ⟨k, after, rfl, htkey, hafter⟩ := hbody.of_append
      obtain ⟨gap', colon, rfl, htgap', hcolon⟩ := hafter.of_append
      obtain ⟨inner, rfl, hinner⟩ := hcolon.of_cons (by decide) (by decide)
      rw [hkey.thinned htkey]
      exact .lastMember (hgap.thinned htgap) hkey (hgap'.thinned htgap') (ih hinner)
  | member hgap hkey hgap' _ _ ih ihmore =>
      intro ts ht
      obtain ⟨gap, quoted, rfl, htgap, hquoted⟩ := ht.of_append
      obtain ⟨body, rfl, hbody⟩ := hquoted.of_cons (by decide) (by decide)
      obtain ⟨k, after, rfl, htkey, hafter⟩ := hbody.of_append
      obtain ⟨gap', colon, rfl, htgap', hcolon⟩ := hafter.of_append
      obtain ⟨rest, rfl, hrest⟩ := hcolon.of_cons (by decide) (by decide)
      obtain ⟨inner, comma, rfl, hinner, hcomma⟩ := hrest.of_append
      obtain ⟨more, rfl, hmore⟩ := hcomma.of_cons (by decide) (by decide)
      rw [hkey.thinned htkey]
      exact .member (hgap.thinned htgap) hkey (hgap'.thinned htgap') (ih hinner) (ihmore hmore)

end Document

/-! ## Whole texts -/

namespace Value

open Document

theorem balanced_of_parse {text : String} {v : Value} (h : parse text = .ok v) :
    Balanced text.toList := by
  obtain ⟨d, hspells, -⟩ := parse_eq_ok_iff.mp h
  exact hspells.balanced

/-- A value is read from its text also without some of the line ends. -/
theorem parse_of_thinned {text text' : String} {v : Value} (h : parse text = .ok v)
    (ht : Thinned text.toList text'.toList) : parse text' = .ok v := by
  obtain ⟨d, hspells, hvalue⟩ := parse_eq_ok_iff.mp h
  exact parse_eq_ok_iff.mpr ⟨d, hspells.thinned ht, hvalue⟩

end Value

end ModuleGraph.Json
