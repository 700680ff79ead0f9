import Mathlib.Data.List.Forall2
import ModuleGraph.Proofs.Glob.Leaves
import ModuleGraph.Proofs.Glob.Reading
import ModuleGraph.Proofs.Names

set_option autoImplicit false

/-! # Matching globs of stars and plain characters

A glob that is written from segments, each behind a slash, with no other sign than `*` and no
segment `**`, matches the text of a list of names exactly when there are as many names as segments
and each name fits its segment, where a `*` stands for any characters (`isMatch_rooted_iff`). With
segments `**`, the names are divided among the segments (`Covers`, `leads_itemsOf_iff`).

Matching goes by units and not by characters. That makes no difference here, because the units of
a character are found in a text only where the character stands (`exists_suffix_of_units`).
-/

namespace ModuleGraph

namespace Glob

open ModuleGraph.Path (rooted rooted_nil rooted_cons)

/-! ## Units of characters -/

def units (cs : List Char) : Units := cs.flatMap unitsOf

@[simp] theorem units_nil : units [] = [] := rfl

@[simp] theorem units_cons (c : Char) (cs : List Char) : units (c :: cs) = unitsOf c ++ units cs :=
  rfl

@[simp] theorem units_append (cs ds : List Char) : units (cs ++ ds) = units cs ++ units ds :=
  List.flatMap_append

theorem unitsOf_ne_nil (c : Char) : unitsOf c ≠ [] := by
  simp [unitsOf]

theorem units_eq_nil_iff {cs : List Char} : units cs = [] ↔ cs = [] := by
  cases cs with
  | nil => simp
  | cons c cs => simp [unitsOf_ne_nil]

/-- No character has units that start with those of another one. -/
theorem unitsOf_append_inj {c d : Char} {x y : Units} (h : unitsOf c ++ x = unitsOf d ++ y) :
    c = d ∧ x = y := by
  have hcd : c = d := by
    unfold unitsOf at h
    rcases lt_trichotomy c d with hlt | heq | hlt
    · have hunits := utf8EncodeChar_append_lt hlt x y
      rw [h] at hunits
      exact absurd hunits (List.lt_irrefl _)
    · exact heq
    · have hunits := utf8EncodeChar_append_lt hlt y x
      rw [h] at hunits
      exact absurd hunits (List.lt_irrefl _)
  subst hcd
  exact ⟨rfl, List.append_cancel_left h⟩

theorem exists_of_units_eq {n : List Char} {c : Char} {rest : Units}
    (h : units n = unitsOf c ++ rest) : ∃ n', n = c :: n' ∧ rest = units n' := by
  cases n with
  | nil => exact absurd (List.append_eq_nil_iff.mp h.symm).1 (unitsOf_ne_nil c)
  | cons d n =>
      obtain ⟨rfl, rfl⟩ := unitsOf_append_inj h
      exact ⟨n, rfl, rfl⟩

/-- Only the first unit of a character can be the first unit of any character. -/
theorem eq_nil_of_first_unit {c : Char} {front more : Units} {u : UInt8}
    (h : unitsOf c = front ++ u :: more) (hu : u.IsUTF8FirstByte) : front = [] := by
  unfold unitsOf at h
  have hlength : front.length < (String.utf8EncodeChar c).length := by
    rw [h, List.length_append, List.length_cons]
    omega
  have hget : (String.utf8EncodeChar c)[front.length] = u := by
    simp [h]
  rw [← hget, UInt8.isUTF8FirstByte_getElem_utf8EncodeChar] at hu
  exact List.eq_nil_of_length_eq_zero hu

theorem exists_first_unit (c : Char) :
    ∃ first more, unitsOf c = first :: more ∧ first.IsUTF8FirstByte := by
  cases hunits : unitsOf c with
  | nil => exact absurd hunits (unitsOf_ne_nil c)
  | cons first more =>
      refine ⟨first, more, rfl, ?_⟩
      unfold unitsOf at hunits
      have hlength : 0 < (String.utf8EncodeChar c).length := by
        rw [hunits, List.length_cons]
        omega
      have hget : (String.utf8EncodeChar c)[0] = first := by
        simp [hunits]
      rw [← hget, UInt8.isUTF8FirstByte_getElem_utf8EncodeChar]

/-- **The units of a character stand in a text only where the character does.** -/
theorem exists_suffix_of_units {n : List Char} {c : Char} {text rest : Units}
    (hsuffix : text <:+ units n) (htext : text = unitsOf c ++ rest) :
    ∃ n', n' <:+ n ∧ text = units n' := by
  obtain ⟨first, more, hc, hfirst⟩ := exists_first_unit c
  induction n with
  | nil =>
      rw [units_nil, List.suffix_nil] at hsuffix
      rw [hsuffix] at htext
      exact absurd (List.append_eq_nil_iff.mp htext.symm).1 (unitsOf_ne_nil c)
  | cons a n ih =>
      obtain ⟨front, hfront⟩ := hsuffix
      rw [units_cons] at hfront
      rcases List.append_eq_append_iff.mp hfront with ⟨back, ha, hback⟩ | ⟨back, -, hn⟩
      · cases back with
        | nil => exact ⟨n, List.suffix_cons a n, hback⟩
        | cons u back =>
            -- The text starts inside of `a`, so with the first unit of `a`.
            rw [htext, hc, List.cons_append, List.cons_append] at hback
            obtain ⟨rfl, -⟩ := List.cons.inj hback
            obtain rfl := eq_nil_of_first_unit ha hfirst
            exact ⟨a :: n, List.suffix_refl _, hfront⟩
      · obtain ⟨n', hn', heq⟩ := ih ⟨back, hn.symm⟩
        exact ⟨n', hn'.trans (List.suffix_cons a n), heq⟩

theorem isUTF8FirstByte_slash : slash.IsUTF8FirstByte := by
  obtain ⟨first, more, hslash, hfirst⟩ := exists_first_unit '/'
  obtain ⟨rfl, -⟩ := List.cons.inj (show [slash] = first :: more from hslash)
  exact hfirst

theorem slash_mem_unitsOf_iff {c : Char} : slash ∈ unitsOf c ↔ c = '/' := by
  constructor
  · intro hmem
    obtain ⟨front, more, hc⟩ := List.append_of_mem hmem
    obtain rfl := eq_nil_of_first_unit hc isUTF8FirstByte_slash
    have heq : unitsOf c ++ [] = unitsOf '/' ++ more := by
      rw [List.append_nil, hc]
      rfl
    exact (unitsOf_append_inj heq).1
  · rintro rfl
    exact List.mem_singleton.mpr rfl

theorem slash_mem_units_iff {cs : List Char} : slash ∈ units cs ↔ '/' ∈ cs := by
  simp [units, slash_mem_unitsOf_iff]

/-! ## Names that fit a segment -/

/-- A name fits a segment when it can be had from the segment by putting some characters, or
none, for each `*`. -/
inductive Fits : List Char → List Char → Prop where
  | nil : Fits [] []
  | letter {c : Char} {segment name : List Char} : c ≠ '*' → Fits segment name →
      Fits (c :: segment) (c :: name)
  | star {segment name : List Char} (front : List Char) : Fits segment name →
      Fits ('*' :: segment) (front ++ name)

theorem fits_iff_eq {segment name : List Char} (h : '*' ∉ segment) :
    Fits segment name ↔ name = segment := by
  constructor
  · intro hfits
    induction hfits with
    | nil => rfl
    | letter _ _ ih => rw [ih (List.not_mem_of_not_mem_cons h)]
    | star _ _ _ => exact absurd List.mem_cons_self h
  · rintro rfl
    induction name with
    | nil => exact .nil
    | cons c name ih =>
        rw [List.mem_cons, not_or] at h
        exact .letter (Ne.symm h.1) (ih h.2)

theorem fits_nil_right_iff {q : List Char} : Fits q [] ↔ ∀ c ∈ q, c = '*' := by
  induction q with
  | nil => simp [fits_iff_eq]
  | cons c q ih =>
      rw [List.forall_mem_cons, ← ih]
      constructor
      · intro hfits
        generalize hname : ([] : List Char) = name at hfits
        cases hfits with
        | letter _ _ => cases hname
        | star front hfits =>
            obtain ⟨rfl, rfl⟩ := List.append_eq_nil_iff.mp hname.symm
            exact ⟨rfl, hfits⟩
      · rintro ⟨rfl, hfits⟩
        exact .star [] hfits

theorem leads_star_iff {tokens : List GlobToken} {text rest : Units} :
    Leads (.star :: tokens) text rest ↔
      ∃ front mid, text = front ++ mid ∧ slash ∉ front ∧ Leads tokens mid rest := by
  rw [Leads]
  constructor
  · rintro ⟨mid, hmid, hlead⟩
    rw [leaves, mem_withinSegment_iff] at hmid
    obtain ⟨front, htext, hfront⟩ := hmid
    exact ⟨front, mid, htext, hfront, hlead⟩
  · rintro ⟨front, mid, htext, hfront, hlead⟩
    refine ⟨mid, ?_, hlead⟩
    rw [leaves, mem_withinSegment_iff]
    exact ⟨front, htext, hfront⟩

theorem leads_literal_iff {c : Char} {tokens : List GlobToken} {text rest : Units} :
    Leads (.literal c :: tokens) text rest ↔
      ∃ mid, text = unitsOf c ++ mid ∧ Leads tokens mid rest := by
  simp only [Leads, leaves, Option.mem_toList, strip?_eq_some_iff]

/-- A segment stays between two slashes. -/
theorem exists_front_of_leads {segment : List Char} {text rest : Units} (hslash : '/' ∉ segment)
    (h : Leads (segment.map token) text rest) :
    ∃ front, text = front ++ rest ∧ slash ∉ front := by
  induction segment generalizing text with
  | nil =>
      obtain rfl : text = rest := h
      exact ⟨[], rfl, List.not_mem_nil⟩
  | cons c segment ih =>
      rw [List.mem_cons, not_or] at hslash
      rw [List.map_cons] at h
      by_cases hc : c = '*'
      · rw [hc, token_star, leads_star_iff] at h
        obtain ⟨front, mid, rfl, hfront, hlead⟩ := h
        obtain ⟨more, rfl, hmore⟩ := ih hslash.2 hlead
        exact ⟨front ++ more, by simp, by simp [hfront, hmore]⟩
      · rw [token_of_ne hc, leads_literal_iff] at h
        obtain ⟨mid, rfl, hlead⟩ := h
        obtain ⟨more, rfl, hmore⟩ := ih hslash.2 hlead
        have hunits : slash ∉ unitsOf c := by
          rw [slash_mem_unitsOf_iff]
          exact Ne.symm hslash.1
        exact ⟨unitsOf c ++ more, by simp, by simp [hunits, hmore]⟩

/-- What a segment takes from a text does not depend on what it leaves. -/
theorem leads_append_self_iff {segment : List Char} {text rest : Units} :
    Leads (segment.map token) (text ++ rest) rest ↔ Leads (segment.map token) text [] := by
  induction segment generalizing text with
  | nil => simp [Leads]
  | cons c segment ih =>
      rw [List.map_cons]
      by_cases hc : c = '*'
      · rw [hc, token_star, leads_star_iff, leads_star_iff]
        constructor
        · rintro ⟨front, mid, htext, hfront, hlead⟩
          obtain ⟨more, rfl⟩ := hlead.suffix
          rw [← List.append_assoc] at htext
          exact ⟨front, more, List.append_cancel_right htext, hfront, ih.mp hlead⟩
        · rintro ⟨front, mid, rfl, hfront, hlead⟩
          exact ⟨front, mid ++ rest, by simp, hfront, ih.mpr hlead⟩
      · rw [token_of_ne hc, leads_literal_iff, leads_literal_iff]
        constructor
        · rintro ⟨mid, htext, hlead⟩
          obtain ⟨more, rfl⟩ := hlead.suffix
          rw [← List.append_assoc] at htext
          exact ⟨more, List.append_cancel_right htext, ih.mp hlead⟩
        · rintro ⟨mid, rfl, hlead⟩
          exact ⟨mid ++ rest, by simp, ih.mpr hlead⟩

theorem leads_of_fits {segment name : List Char} (h : Fits segment name) (hname : '/' ∉ name) :
    Leads (segment.map token) (units name) [] := by
  induction h with
  | nil => rfl
  | @letter c segment name hc _ ih =>
      rw [List.map_cons, token_of_ne hc, leads_literal_iff]
      exact ⟨units name, rfl, ih (List.not_mem_of_not_mem_cons hname)⟩
  | @star segment name front _ ih =>
      rw [List.mem_append, not_or] at hname
      rw [List.map_cons, token_star, leads_star_iff]
      refine ⟨units front, units name, units_append front name, ?_, ih hname.2⟩
      rw [slash_mem_units_iff]
      exact hname.1

/-- A text that a segment takes as a whole fits the segment, and a text that it takes from some
unit on ends in one that does: where a star stops is free, and a letter can only be found where a
character starts. -/
theorem fits_of_leads_from {segment name : List Char} {text : Units}
    (hsuffix : text <:+ units name) (h : Leads (segment.map token) text []) :
    (text = units name → Fits segment name) ∧ ∃ name', name' <:+ name ∧ Fits segment name' := by
  induction segment generalizing name text with
  | nil =>
      obtain rfl : text = [] := h
      refine ⟨fun hname => ?_, [], List.nil_suffix, .nil⟩
      rw [units_eq_nil_iff.mp hname.symm]
      exact .nil
  | cons c segment ih =>
      rw [List.map_cons] at h
      by_cases hc : c = '*'
      · subst hc
        rw [token_star, leads_star_iff] at h
        obtain ⟨front, mid, rfl, -, hlead⟩ := h
        obtain ⟨name', hname', hfits⟩ := (ih ((List.suffix_append front mid).trans hsuffix) hlead).2
        refine ⟨fun _ => ?_, name', hname', .star [] hfits⟩
        obtain ⟨start, rfl⟩ := hname'
        exact .star start hfits
      · rw [token_of_ne hc, leads_literal_iff] at h
        obtain ⟨mid, htext, hlead⟩ := h
        obtain ⟨whole, hwhole, heq⟩ := exists_suffix_of_units hsuffix htext
        rw [heq] at htext
        obtain ⟨rest, rfl, rfl⟩ := exists_of_units_eq htext
        have hfits : Fits (c :: segment) (c :: rest) :=
          .letter hc ((ih (List.suffix_refl _) hlead).1 rfl)
        refine ⟨fun hname => ?_, c :: rest, hwhole, hfits⟩
        obtain ⟨start, rfl⟩ := hwhole
        rw [hname, units_append, List.append_left_eq_self] at heq
        rwa [units_eq_nil_iff.mp heq, List.nil_append]

/-- **A segment takes the whole of a name exactly when the name fits it.** -/
theorem leads_units_iff {segment name : List Char} (hname : '/' ∉ name) :
    Leads (segment.map token) (units name) [] ↔ Fits segment name :=
  ⟨fun h => (fits_of_leads_from (List.suffix_refl _) h).1 rfl, fun h => leads_of_fits h hname⟩

/-! ## Matching segment by segment -/

/-- Where a text without slashes ends at a slash or at the end, it ends in one place only. -/
theorem append_slash_inj {front front' back back' : Units} (h : front ++ back = front' ++ back')
    (hfront : slash ∉ front) (hfront' : slash ∉ front') (hback : ∀ u ∈ back.head?, u = slash)
    (hback' : ∀ u ∈ back'.head?, u = slash) : front = front' ∧ back = back' := by
  have hshort : ∀ {x y more : Units}, slash ∉ y → y = x ++ more →
      (∀ u ∈ more.head?, u = slash) → more = [] := by
    intro x y more hy hxy hmore
    cases more with
    | nil => rfl
    | cons u more =>
        obtain rfl := hmore u rfl
        exact absurd (by simp [hxy]) hy
  have hhead : ∀ {more rest : Units}, (∀ u ∈ (more ++ rest).head?, u = slash) →
      ∀ u ∈ more.head?, u = slash := by
    intro more rest hboth u hu
    refine hboth u ?_
    rw [List.head?_append, Option.mem_def.mp hu]
    rfl
  rcases List.append_eq_append_iff.mp h with ⟨more, hlong, hrest⟩ | ⟨more, hlong, hrest⟩
  · rw [hrest] at hback
    obtain rfl := hshort hfront' hlong (hhead hback)
    exact ⟨by rw [hlong, List.append_nil], by rw [hrest, List.nil_append]⟩
  · rw [hrest] at hback'
    obtain rfl := hshort hfront hlong (hhead hback')
    exact ⟨by rw [hlong, List.append_nil], by rw [hrest, List.nil_append]⟩

theorem head?_units_rooted (names : List (List Char)) :
    ∀ u ∈ (units (rooted names)).head?, u = slash := by
  cases names with
  | nil => simp
  | cons n names =>
      intro u hu
      exact (Option.some.inj hu).symm

/-- A segment takes the first name, when what follows it can only start with a slash. -/
theorem leads_name_iff {segment n : List Char} {names : List (List Char)} {tokens : List GlobToken}
    (hsegment : '/' ∉ segment) (hn : '/' ∉ n)
    (htokens : ∀ text, Leads tokens text [] → ∀ u ∈ text.head?, u = slash) :
    Leads (segment.map token ++ tokens) (units n ++ units (rooted names)) [] ↔
      Fits segment n ∧ Leads tokens (units (rooted names)) [] := by
  rw [leads_append_iff]
  constructor
  · rintro ⟨rest, hlead, hrest⟩
    obtain ⟨front, hsplit, hfront⟩ := exists_front_of_leads hsegment hlead
    have hunits : slash ∉ units n := by
      rw [slash_mem_units_iff]
      exact hn
    obtain ⟨rfl, rfl⟩ := append_slash_inj hsplit hunits hfront (head?_units_rooted names)
      (htokens rest hrest)
    rw [leads_append_self_iff, leads_units_iff hn] at hlead
    exact ⟨hlead, hrest⟩
  · rintro ⟨hfits, hrest⟩
    refine ⟨units (rooted names), ?_, hrest⟩
    rw [leads_append_self_iff, leads_units_iff hn]
    exact hfits

theorem units_rooted_cons (n : List Char) (names : List (List Char)) :
    units (rooted (n :: names)) = slash :: (units n ++ units (rooted names)) := by
  rw [rooted_cons, units_cons, units_append]
  rfl

theorem leads_slash_cons_iff {tokens : List GlobToken} {text rest : Units} :
    Leads (.literal '/' :: tokens) (slash :: text) rest ↔ Leads tokens text rest := by
  rw [leads_literal_iff]
  constructor
  · rintro ⟨mid, hmid, hlead⟩
    obtain rfl : text = mid := (List.cons.inj hmid).2
    exact hlead
  · exact fun hlead => ⟨text, rfl, hlead⟩

theorem not_leads_slash_nil {tokens : List GlobToken} {rest : Units} :
    ¬Leads (.literal '/' :: tokens) [] rest := by
  rw [leads_literal_iff]
  rintro ⟨mid, hmid, -⟩
  cases hmid

theorem head?_of_leads_slash {tokens : List GlobToken} {text rest : Units}
    (h : Leads (.literal '/' :: tokens) text rest) : ∀ u ∈ text.head?, u = slash := by
  obtain ⟨mid, rfl, -⟩ := leads_literal_iff.mp h
  intro u hu
  exact (Option.some.inj hu).symm

theorem head?_of_leads_rooted {segments : List (List Char)} {text : Units}
    (h : Leads ((rooted segments).map token) text []) : ∀ u ∈ text.head?, u = slash := by
  cases segments with
  | nil =>
      obtain rfl : text = [] := h
      simp
  | cons segment segments => exact head?_of_leads_slash h

/-- **Segments take names one by one.** -/
theorem leads_rooted_iff {segments names : List (List Char)} (hsegments : ∀ q ∈ segments, '/' ∉ q)
    (hnames : ∀ n ∈ names, '/' ∉ n) :
    Leads ((rooted segments).map token) (units (rooted names)) [] ↔
      List.Forall₂ Fits segments names := by
  induction segments generalizing names with
  | nil =>
      rw [rooted_nil, List.map_nil, List.forall₂_nil_left_iff]
      show units (rooted names) = [] ↔ names = []
      rw [units_eq_nil_iff]
      cases names <;> simp
  | cons segment segments ih =>
      rw [List.forall_mem_cons] at hsegments
      rw [rooted_cons, List.map_cons, List.map_append, token_of_ne (by decide)]
      cases names with
      | nil => simp [not_leads_slash_nil]
      | cons n names =>
          rw [List.forall_mem_cons] at hnames
          rw [units_rooted_cons, leads_slash_cons_iff, List.forall₂_cons,
            leads_name_iff hsegments.1 hnames.1 (fun _ => head?_of_leads_rooted),
            ih hsegments.2 hnames.2]

/-- **A glob of segments matches names segment by segment.** -/
theorem isMatch_rooted_iff {segments names : List (List Char)}
    (hsegments : ∀ q ∈ segments, '/' ∉ q) (hnames : ∀ n ∈ names, '/' ∉ n) :
    isMatch ((rooted segments).map token) (units (rooted names)) = true ↔
      List.Forall₂ Fits segments names := by
  have hleading : (rooted segments).map token ≠ [.leading] := by
    intro hglob
    obtain ⟨c, cs, -, hc, -⟩ := List.map_eq_cons_iff.mp hglob
    unfold token at hc
    split at hc <;> cases hc
  rw [isMatch_iff hleading, leads_rooted_iff hsegments hnames]

/-! ## Names that segments cover -/

/-- Names are covered by segments when they can be divided among the segments in their order. A
segment takes one name that fits it, and a `**` takes any names, or none; but where it is the last
segment, it takes at least one. -/
inductive Covers : List (List Char) → List (List Char) → Prop where
  | nil : Covers [] []
  | name {q n : List Char} {qs ns : List (List Char)} : q ≠ stars → Fits q n → Covers qs ns →
      Covers (q :: qs) (n :: ns)
  | stars {qs ns : List (List Char)} (front : List (List Char)) : (qs = [] → front ≠ []) →
      Covers qs ns → Covers (stars :: qs) (front ++ ns)

theorem covers_nil_iff {ns : List (List Char)} : Covers [] ns ↔ ns = [] := by
  constructor
  · rintro ⟨⟩
    rfl
  · rintro rfl
    exact .nil

theorem covers_cons_iff {q : List Char} {qs ns : List (List Char)} (hq : q ≠ stars) :
    Covers (q :: qs) ns ↔ ∃ n more, ns = n :: more ∧ Fits q n ∧ Covers qs more := by
  constructor
  · intro h
    cases h with
    | name _ hfits hcovers => exact ⟨_, _, rfl, hfits, hcovers⟩
    | stars front _ _ => exact absurd rfl hq
  · rintro ⟨n, more, rfl, hfits, hcovers⟩
    exact .name hq hfits hcovers

theorem covers_stars_iff {qs ns : List (List Char)} :
    Covers (stars :: qs) ns ↔
      ∃ front more, ns = front ++ more ∧ (qs = [] → front ≠ []) ∧ Covers qs more := by
  constructor
  · intro h
    cases h with
    | name hne _ _ => exact absurd rfl hne
    | stars front hfront hcovers => exact ⟨front, _, rfl, hfront, hcovers⟩
  · rintro ⟨front, more, rfl, hfront, hcovers⟩
    exact .stars front hfront hcovers

theorem covers_stars_end_iff {ns : List (List Char)} : Covers [stars] ns ↔ ns ≠ [] := by
  rw [covers_stars_iff]
  constructor
  · rintro ⟨front, more, rfl, hfront, -⟩
    simp [hfront rfl]
  · intro hns
    exact ⟨ns, [], by simp, fun _ => hns, .nil⟩

/-- Behind a `**`, a segment takes any one of the names. -/
theorem covers_stars_cons_iff {q : List Char} {qs ns : List (List Char)} (hq : q ≠ stars) :
    Covers (stars :: q :: qs) ns ↔
      ∃ front n more, ns = front ++ n :: more ∧ Fits q n ∧ Covers qs more := by
  rw [covers_stars_iff]
  constructor
  · rintro ⟨front, rest, rfl, -, hcovers⟩
    obtain ⟨n, more, rfl, hfits, hmore⟩ := (covers_cons_iff hq).mp hcovers
    exact ⟨front, n, more, rfl, hfits, hmore⟩
  · rintro ⟨front, n, more, rfl, hfits, hmore⟩
    exact ⟨front, n :: more, rfl, by simp, .name hq hfits hmore⟩

/-- Of two `**` that follow each other, one is enough. -/
theorem covers_stars_stars_iff {qs ns : List (List Char)} :
    Covers (stars :: stars :: qs) ns ↔ Covers (stars :: qs) ns := by
  constructor
  · intro h
    obtain ⟨front, more, rfl, -, hcovers⟩ := covers_stars_iff.mp h
    obtain ⟨front', more', rfl, hfront', hcovers'⟩ := covers_stars_iff.mp hcovers
    rw [← List.append_assoc]
    exact .stars _ (fun hqs => by simp [hfront' hqs]) hcovers'
  · intro h
    exact .stars [] (by simp) h

theorem covers_nil_right_iff {segments : List (List Char)} : Covers segments [] ↔ segments = [] := by
  induction segments with
  | nil => simp [covers_nil_iff]
  | cons q qs ih =>
      by_cases hq : q = stars
      · rw [hq, covers_stars_iff]
        simp [ih]
      · simp [covers_cons_iff hq]

theorem mem_afterSlashes_units_iff {names : List (List Char)} (hnames : ∀ n ∈ names, '/' ∉ n)
    {rest : Units} :
    rest ∈ afterSlashes (units (rooted names)) ↔
      ∃ front n more, names = front ++ n :: more ∧ rest = units n ++ units (rooted more) := by
  induction names with
  | nil => simp [afterSlashes]
  | cons n names ih =>
      rw [List.forall_mem_cons] at hnames
      have hn : slash ∉ units n := by
        rw [slash_mem_units_iff]
        exact hnames.1
      rw [units_rooted_cons, afterSlashes, if_pos rfl, List.mem_cons, afterSlashes_append hn,
        ih hnames.2]
      constructor
      · rintro (rfl | ⟨front, m, more, rfl, rfl⟩)
        · exact ⟨[], n, names, rfl, rfl⟩
        · exact ⟨n :: front, m, more, rfl, rfl⟩
      · rintro ⟨front, m, more, hsplit, rfl⟩
        cases front with
        | nil =>
            obtain ⟨rfl, rfl⟩ := List.cons.inj hsplit
            exact Or.inl rfl
        | cons first front =>
            obtain ⟨rfl, rfl⟩ := List.cons.inj hsplit
            exact Or.inr ⟨front, m, more, rfl, rfl⟩

theorem leads_between_iff {names : List (List Char)} (hnames : ∀ n ∈ names, '/' ∉ n)
    {tokens : List GlobToken} {rest : Units} :
    Leads (.between :: tokens) (units (rooted names)) rest ↔
      ∃ front n more, names = front ++ n :: more ∧
        Leads tokens (units n ++ units (rooted more)) rest := by
  have hleaves : leaves .between (units (rooted names)) = afterSlashes (units (rooted names)) := by
    cases names with
    | nil => rfl
    | cons n names => rw [units_rooted_cons, leaves, afterSlashes, if_pos rfl, if_pos rfl]
  simp only [Leads, hleaves, mem_afterSlashes_units_iff hnames]
  constructor
  · rintro ⟨mid, ⟨front, n, more, hsplit, rfl⟩, hlead⟩
    exact ⟨front, n, more, hsplit, hlead⟩
  · rintro ⟨front, n, more, hsplit, hlead⟩
    exact ⟨_, ⟨front, n, more, hsplit, rfl⟩, hlead⟩

theorem leads_trailing_iff {names : List (List Char)} :
    Leads [.trailing] (units (rooted names)) [] ↔ names ≠ [] := by
  cases names with
  | nil => simp [Leads, leaves]
  | cons n names =>
      rw [units_rooted_cons]
      simp [Leads, leaves, mem_suffixes_iff]

theorem head?_of_mem_leaves {item : GlobToken} (hitem : item = .trailing ∨ item = .between)
    {text rest : Units} (h : rest ∈ leaves item text) : ∀ u ∈ text.head?, u = slash := by
  cases text with
  | nil => simp
  | cons v text =>
      intro u hu
      obtain rfl : v = u := Option.some.inj hu
      by_contra hne
      rcases hitem with rfl | rfl <;> simp [leaves, hne] at h

theorem head?_of_leads_itemsOf {afterStars : Bool} {segments : List (List Char)} {text : Units}
    (h : Leads (itemsOf afterStars segments) text []) : ∀ u ∈ text.head?, u = slash := by
  induction segments generalizing afterStars with
  | nil =>
      cases afterStars with
      | false =>
          obtain rfl : text = [] := h
          simp
      | true =>
          obtain ⟨mid, hmid, -⟩ := h
          exact head?_of_mem_leaves (.inl rfl) hmid
  | cons q qs ih =>
      by_cases hq : q = stars
      · rw [hq, itemsOf_stars] at h
        exact ih h
      · rw [itemsOf_of_ne hq] at h
        cases afterStars with
        | false => exact head?_of_leads_slash h
        | true =>
            obtain ⟨mid, hmid, -⟩ := h
            exact head?_of_mem_leaves (.inr rfl) hmid

/-- **Segments take the names that they cover.** -/
theorem leads_itemsOf_iff {segments names : List (List Char)} (hsegments : ∀ q ∈ segments, '/' ∉ q)
    (hnames : ∀ n ∈ names, '/' ∉ n) (afterStars : Bool) :
    Leads (itemsOf afterStars segments) (units (rooted names)) [] ↔
      Covers (if afterStars then stars :: segments else segments) names := by
  induction segments generalizing afterStars names with
  | nil =>
      cases afterStars with
      | false =>
          show units (rooted names) = [] ↔ Covers [] names
          rw [covers_nil_iff, units_eq_nil_iff]
          cases names <;> simp
      | true => exact leads_trailing_iff.trans covers_stars_end_iff.symm
  | cons q qs ih =>
      rw [List.forall_mem_cons] at hsegments
      by_cases hq : q = stars
      · subst hq
        rw [itemsOf_stars, ih hsegments.2 hnames true]
        cases afterStars with
        | false => exact Iff.rfl
        | true => exact covers_stars_stars_iff.symm
      · have hname : ∀ {n : List Char} {more : List (List Char)}, '/' ∉ n → (∀ m ∈ more, '/' ∉ m) →
            (Leads (q.map token ++ itemsOf false qs) (units n ++ units (rooted more)) [] ↔
              Fits q n ∧ Covers qs more) := by
          intro n more hn hmore
          rw [leads_name_iff hsegments.1 hn (fun _ => head?_of_leads_itemsOf),
            ih hsegments.2 hmore false]
          rfl
        rw [itemsOf_of_ne hq]
        cases afterStars with
        | false =>
            show Leads (.literal '/' :: _) _ _ ↔ Covers (q :: qs) names
            rw [covers_cons_iff hq]
            cases names with
            | nil => simp [not_leads_slash_nil]
            | cons n more =>
                rw [List.forall_mem_cons] at hnames
                rw [units_rooted_cons, leads_slash_cons_iff, hname hnames.1 hnames.2]
                simp
        | true =>
            show Leads (.between :: _) _ _ ↔ Covers (stars :: q :: qs) names
            rw [leads_between_iff hnames, covers_stars_cons_iff hq]
            refine exists_congr fun front => exists_congr fun n => exists_congr fun more =>
              and_congr_right ?_
            rintro rfl
            rw [List.forall_mem_append, List.forall_mem_cons] at hnames
            exact hname hnames.2.1 hnames.2.2

theorem leads_name_itemsOf_iff {q n : List Char} {qs ns : List (List Char)} (hq : '/' ∉ q)
    (hqs : ∀ r ∈ qs, '/' ∉ r) (hn : '/' ∉ n) (hns : ∀ m ∈ ns, '/' ∉ m) :
    Leads (q.map token ++ itemsOf false qs) (units n ++ units (rooted ns)) [] ↔
      Fits q n ∧ Covers qs ns := by
  rw [leads_name_iff hq hn (fun _ => head?_of_leads_itemsOf), leads_itemsOf_iff hqs hns false]
  rfl

end Glob

end ModuleGraph
