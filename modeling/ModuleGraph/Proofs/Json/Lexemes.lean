import ModuleGraph.Json.Document

set_option autoImplicit false

/-! # Strings and numbers take a front of the text

Reading a string or a number takes some characters off the front of a text and leaves the rest.
What is taken does not depend on what follows: the same front is taken off every text that
starts with it (`exists_front_of_readString`), for a number as long as what follows does not go
on with the number (`exists_front_of_readUnsigned`). The fronts are described by their characters:
a string is a `Body`, which ends at its first quote that is not escaped, and a number consists
of `isNumeral` characters.
-/

namespace ModuleGraph.Json

namespace Document

/-! ## Strings -/

/-- The characters of a string after its opening quote, up to the closing one: none of them is a
control character, and a quote inside is escaped. -/
inductive Body : List Char → Prop where
  | close : Body ['"']
  | plain {c : Char} {cs : List Char} : c ≠ '"' → c ≠ '\\' → ¬c < ' ' → Body cs → Body (c :: cs)
  | escape {c : Char} {cs : List Char} : ¬c < ' ' → Body cs → Body ('\\' :: c :: cs)

theorem Body.not_control {cs : List Char} (h : Body cs) : ∀ c ∈ cs, ¬c < ' ' := by
  induction h with
  | close => exact List.forall_mem_singleton.mpr (by decide)
  | plain _ _ hc _ ih => exact List.forall_mem_cons.mpr ⟨hc, ih⟩
  | escape hc _ ih =>
      exact List.forall_mem_cons.mpr ⟨by decide, List.forall_mem_cons.mpr ⟨hc, ih⟩⟩

theorem Body.of_hexDigit {c : Char} {n : Nat} {cs : List Char} (hc : hexDigit? c = some n)
    (h : Body cs) : Body (c :: cs) := by
  have hrange : '0' ≤ c := by
    unfold hexDigit? at hc
    split at hc
    · rename_i hd
      exact hd.1
    · split at hc
      · rename_i hd
        exact Char.le_trans (by decide) hd.1
      · split at hc
        · rename_i hd
          exact Char.le_trans (by decide) hd.1
        · cases hc
  refine .plain ?_ ?_ ?_ h
  · rintro rfl
    exact absurd hrange (by decide)
  · rintro rfl
    have hnone : hexDigit? '\\' = none := by decide
    rw [hnone] at hc
    cases hc
  · exact Char.not_lt.mpr (Char.le_trans (by decide) hrange)

theorem hexDigit_of_hexValue {a b c d : Char} {n : Nat} (h : hexValue? [a, b, c, d] = some n) :
    (∃ w, hexDigit? a = some w) ∧ (∃ x, hexDigit? b = some x) ∧ (∃ y, hexDigit? c = some y) ∧
      ∃ z, hexDigit? d = some z := by
  simp only [hexValue?, List.foldl_cons, List.foldl_nil, Option.bind_eq_some_iff,
    Option.map_eq_some_iff] at h
  obtain ⟨_, ⟨_, ⟨_, ⟨_, _, w, hw, _⟩, x, hx, _⟩, y, hy, _⟩, z, hz, _⟩ := h
  exact ⟨⟨w, hw⟩, ⟨x, hx⟩, ⟨y, hy⟩, z, hz⟩

/-- Four hexadecimal digits after `\u` belong to the body of a string. -/
theorem Body.unicode {a b c d : Char} {n : Nat} {cs : List Char}
    (h : hexValue? [a, b, c, d] = some n) (hcs : Body cs) :
    Body ('\\' :: 'u' :: a :: b :: c :: d :: cs) := by
  obtain ⟨⟨w, hw⟩, ⟨x, hx⟩, ⟨y, hy⟩, z, hz⟩ := hexDigit_of_hexValue h
  exact .escape (by decide) (.of_hexDigit hw (.of_hexDigit hx (.of_hexDigit hy (.of_hexDigit hz hcs))))

theorem not_control_of_simpleEscape {c e : Char} (h : simpleEscape? c = some e) : ¬c < ' ' := by
  unfold simpleEscape? at h
  split at h <;> first | decide | cases h

theorem readString_escape {c e : Char} (he : simpleEscape? c = some e) (acc : List Char)
    (whole : Bool) (rest : List Char) :
    readString acc whole ('\\' :: c :: rest) = readString (e :: acc) whole rest := by
  have hu : c ≠ 'u' := by
    rintro rfl
    cases he
  rw [readString, he]
  · rintro a b c d t rfl
    exact absurd rfl hu
  · exact hu

theorem readString_plain {c : Char} (hquote : c ≠ '"') (hslash : c ≠ '\\') (hcontrol : ¬c < ' ')
    (acc : List Char) (whole : Bool) (rest : List Char) :
    readString acc whole (c :: rest) = readString (c :: acc) whole rest := by
  simp [readString, hslash, hcontrol]

/-- A string in which `\u` is read has four characters after it. -/
theorem exists_digits_of_readString {acc cs : List Char} {whole : Bool}
    {x : Reading × List Char} (h : readString acc whole ('\\' :: 'u' :: cs) = .ok x) :
    ∃ a b c d rest, cs = a :: b :: c :: d :: rest := by
  match cs, h with
  | [], h => simp [readString] at h
  | [_], h => simp [readString] at h
  | [_, _], h => simp [readString] at h
  | [_, _, _], h => simp [readString] at h
  | a :: b :: c :: d :: rest, _ => exact ⟨a, b, c, d, rest, rfl⟩

/-- A string that is read completely has no `\u` at its end that what follows could complete. -/
theorem eq_unicode_of_append {acc front rest t : List Char} {whole : Bool}
    {x : Reading × List Char} {a b c d : Char} (h : readString acc whole front = .ok x)
    (ht : front ++ rest = '\\' :: 'u' :: a :: b :: c :: d :: t) :
    ∃ a b c d t, front = '\\' :: 'u' :: a :: b :: c :: d :: t := by
  cases front with
  | nil => simp [readString] at h
  | cons p front =>
      obtain ⟨rfl, htail⟩ := List.cons.inj ht
      cases front with
      | nil => simp [readString] at h
      | cons q front =>
          obtain ⟨rfl, -⟩ := List.cons.inj htail
          obtain ⟨a, b, c, d, t, rfl⟩ := exists_digits_of_readString h
          exact ⟨a, b, c, d, t, rfl⟩

/-- **Reading a string takes a body off the text, whatever follows it.** -/
theorem exists_front_of_readString {acc cs left : List Char} {whole : Bool} {r : Reading}
    (h : readString acc whole cs = .ok (r, left)) :
    ∃ front, cs = front ++ left ∧ Body front ∧
      ∀ rest, readString acc whole (front ++ rest) = .ok (r, rest) := by
  fun_induction readString acc whole cs with
  | case1 => cases h
  | case2 acc whole rest =>
      cases h
      exact ⟨['"'], rfl, .close, fun rest => by simp [readString]⟩
  | case3 => cases h
  | case4 => cases h
  | case5 acc whole a b c d high hhigh hhalf a' b' c' d' more low hlow hhalf' ih =>
      obtain ⟨front, rfl, hbody, hfront⟩ := ih h
      refine ⟨'\\' :: 'u' :: a :: b :: c :: d :: '\\' :: 'u' :: a' :: b' :: c' :: d' :: front, rfl,
        .unicode hhigh (.unicode hlow hbody), fun rest => ?_⟩
      simp [readString, hhigh, hhalf, hlow, hhalf', hfront]
  | case6 acc whole a b c d high hhigh hhalf a' b' c' d' more low hlow hhalf' ih =>
      obtain ⟨front, rfl, hbody, hfront⟩ := ih h
      refine ⟨'\\' :: 'u' :: a :: b :: c :: d :: '\\' :: 'u' :: a' :: b' :: c' :: d' :: front, rfl,
        .unicode hhigh (.unicode hlow hbody), fun rest => ?_⟩
      simp [readString, hhigh, hhalf, hlow, hhalf', hfront]
  | case7 acc whole a b c d high hhigh hhalf more hmore ih =>
      obtain ⟨front, rfl, hbody, hfront⟩ := ih h
      refine ⟨'\\' :: 'u' :: a :: b :: c :: d :: front, rfl, .unicode hhigh hbody, fun rest => ?_⟩
      -- What follows cannot complete an escape that the front has begun.
      have hpair : ∀ a' b' c' d' t, front ++ rest ≠ '\\' :: 'u' :: a' :: b' :: c' :: d' :: t := by
        intro a' b' c' d' t ht
        obtain ⟨p, q, u, v, w, rfl⟩ := eq_unicode_of_append (by simpa using hfront []) ht
        exact hmore p q u v (w ++ left) rfl
      simp only [List.cons_append, readString, hhigh, hhalf, if_true]
      exact hfront rest
  | case8 acc whole a b c d more high hhigh hhalf hhalf' ih =>
      obtain ⟨front, rfl, hbody, hfront⟩ := ih h
      refine ⟨'\\' :: 'u' :: a :: b :: c :: d :: front, rfl, .unicode hhigh hbody, fun rest => ?_⟩
      simp [readString, hhigh, hhalf, hhalf', hfront]
  | case9 acc whole a b c d more high hhigh hhalf hhalf' ih =>
      obtain ⟨front, rfl, hbody, hfront⟩ := ih h
      refine ⟨'\\' :: 'u' :: a :: b :: c :: d :: front, rfl, .unicode hhigh hbody, fun rest => ?_⟩
      simp [readString, hhigh, hhalf, hhalf', hfront]
  | case10 => cases h
  | case11 acc whole c more hu hu' e he ih =>
      obtain ⟨front, rfl, hbody, hfront⟩ := ih h
      refine ⟨'\\' :: c :: front, rfl, .escape (not_control_of_simpleEscape he) hbody,
        fun rest => ?_⟩
      rw [List.cons_append, List.cons_append, readString_escape he, hfront]
  | case12 => cases h
  | case13 => cases h
  | case14 => cases h
  | case15 acc whole c more hquote h1 h2 h3 h4 hcontrol ih =>
      obtain ⟨front, rfl, hbody, hfront⟩ := ih h
      have hslash : c ≠ '\\' := by
        rintro rfl
        cases hm : front ++ left with
        | nil => exact h4 rfl hm
        | cons d rest => exact h3 d rest rfl hm
      refine ⟨c :: front, rfl, .plain hquote hslash hcontrol hbody, fun rest => ?_⟩
      rw [List.cons_append, readString_plain hquote hslash hcontrol, hfront]

/-! ## Numbers -/

/-- The characters that numbers are written with. -/
def isNumeral (c : Char) : Bool :=
  c.isDigit || c == '.' || c == 'e' || c == 'E' || c == '+' || c == '-'

/-- A text that does not go on with a number. -/
def Halts (rest : List Char) : Prop := ∀ c ∈ rest.head?, isNumeral c = false

theorem halts_nil : Halts [] := by simp [Halts]

theorem Halts.cons {c : Char} (h : isNumeral c = false) (rest : List Char) : Halts (c :: rest) := by
  simpa [Halts] using h

theorem isNumeral_of_isDigit {c : Char} (h : c.isDigit = true) : isNumeral c = true := by
  simp [isNumeral, h]

theorem Halts.ne {c : Char} {rest : List Char} (h : Halts (c :: rest)) {d : Char}
    (hd : isNumeral d = true) : c ≠ d := by
  rintro rfl
  have hc : isNumeral c = false := h c rfl
  rw [hd] at hc
  cases hc

/-- Digits, and after them no digit. -/
theorem takeWhile_digits {ds rest : List Char} (hds : ∀ c ∈ ds, c.isDigit = true)
    (hrest : ∀ c ∈ rest.head?, c.isDigit = false) :
    (ds ++ rest).takeWhile Char.isDigit = ds ∧ (ds ++ rest).dropWhile Char.isDigit = rest := by
  have hnone : rest.takeWhile Char.isDigit = [] ∧ rest.dropWhile Char.isDigit = rest := by
    cases rest with
    | nil => exact ⟨rfl, rfl⟩
    | cons c more =>
        have hc : ¬c.isDigit = true := by simpa using hrest c rfl
        exact ⟨List.takeWhile_cons_of_neg hc, List.dropWhile_cons_of_neg hc⟩
  rw [List.takeWhile_append_of_pos hds, List.dropWhile_append_of_pos hds, hnone.1, hnone.2,
    List.append_nil]
  exact ⟨rfl, rfl⟩

theorem Halts.not_digit {rest : List Char} (h : Halts rest) :
    ∀ c ∈ rest.head?, c.isDigit = false := by
  intro c hc
  have hnumeral : isNumeral c = false := h c hc
  simp only [isNumeral, Bool.or_eq_false_iff] at hnumeral
  exact hnumeral.1.1.1.1.1

theorem Halts.not_digit_append {front rest : List Char} (h : Halts rest)
    (hfront : ∀ c ∈ front.head?, c.isDigit = false) :
    ∀ c ∈ (front ++ rest).head?, c.isDigit = false := by
  cases front with
  | nil => exact h.not_digit
  | cons d more => exact hfront

theorem isDigit_of_mem_takeWhile {cs : List Char} :
    ∀ c ∈ cs.takeWhile Char.isDigit, c.isDigit = true :=
  List.all_eq_true.mp List.all_takeWhile

/-- The sign of an exponent, if there is one, and the text after it. -/
def splitSign : List Char → Bool × List Char
  | '-' :: rest => (true, rest)
  | '+' :: rest => (false, rest)
  | rest => (false, rest)

theorem splitSign_of_isDigit {c : Char} (h : c.isDigit = true) (rest : List Char) :
    splitSign (c :: rest) = (false, c :: rest) := by
  rw [splitSign]
  · rintro more ⟨rfl, -⟩
    exact absurd h (by decide)
  · rintro more ⟨rfl, -⟩
    exact absurd h (by decide)

/-- A sign is taken off the text, whatever number follows it. -/
theorem exists_front_of_splitSign (cs : List Char) :
    ∃ front, cs = front ++ (splitSign cs).2 ∧ (∀ c ∈ front, isNumeral c = true) ∧
      ∀ ds rest, ds ≠ [] → (∀ c ∈ ds, c.isDigit = true) →
        splitSign (front ++ (ds ++ rest)) = ((splitSign cs).1, ds ++ rest) := by
  unfold splitSign
  split
  · exact ⟨['-'], rfl, List.forall_mem_singleton.mpr rfl, fun ds rest _ _ => rfl⟩
  · exact ⟨['+'], rfl, List.forall_mem_singleton.mpr rfl, fun ds rest _ _ => rfl⟩
  · refine ⟨[], rfl, by simp, fun ds rest hne hds => ?_⟩
    cases ds with
    | nil => exact absurd rfl hne
    | cons d more => exact splitSign_of_isDigit (hds d List.mem_cons_self) (more ++ rest)

theorem readExponent_cons (negative : Bool) (digits places : Nat) (integral : Bool) (c : Char)
    (rest : List Char) :
    readExponent negative digits places integral (c :: rest) =
      if c == 'e' || c == 'E' then
        if ((splitSign rest).2.takeWhile Char.isDigit).isEmpty then
          .error (digitFault (splitSign rest).2)
        else
          let e : Int := digitsValue ((splitSign rest).2.takeWhile Char.isDigit)
          .ok (⟨negative, digits, (if (splitSign rest).1 then -e else e) - places, false⟩,
            (splitSign rest).2.dropWhile Char.isDigit)
      else .ok (⟨negative, digits, -(places : Int), integral⟩, c :: rest) := by
  rfl

theorem readExponent_of_halts {rest : List Char} (h : Halts rest) (negative : Bool)
    (digits places : Nat) (integral : Bool) :
    readExponent negative digits places integral rest =
      .ok (⟨negative, digits, -(places : Int), integral⟩, rest) := by
  cases rest with
  | nil => rfl
  | cons c more =>
      have he : (c == 'e' || c == 'E') = false := by
        simp [h.ne (d := 'e') (by decide), h.ne (d := 'E') (by decide)]
      rw [readExponent_cons, he]
      rfl

/-- An exponent, or none, is taken off the text, whatever follows that does not go on with it. -/
theorem exists_front_of_readExponent {negative integral : Bool} {digits places : Nat}
    {cs left : List Char} {n : Decimal}
    (h : readExponent negative digits places integral cs = .ok (n, left)) :
    ∃ front, cs = front ++ left ∧ (∀ c ∈ front, isNumeral c = true) ∧
      (∀ c ∈ front.head?, c = 'e' ∨ c = 'E') ∧
      ∀ rest, Halts rest →
        readExponent negative digits places integral (front ++ rest) = .ok (n, rest) := by
  cases cs with
  | nil =>
      cases h
      exact ⟨[], rfl, by simp, by simp, fun rest hrest => readExponent_of_halts hrest _ _ _ _⟩
  | cons c cs =>
      rw [readExponent_cons] at h
      split at h
      · rename_i he
        split at h
        · cases h
        · rename_i hne
          obtain ⟨rfl, rfl⟩ := Prod.mk.inj (Except.ok.inj h)
          obtain ⟨sign, hcs, hsign, hsplit⟩ := exists_front_of_splitSign cs
          have hpower : ∀ d ∈ (splitSign cs).2.takeWhile Char.isDigit, d.isDigit = true :=
            isDigit_of_mem_takeWhile
          have hpowerNe : (splitSign cs).2.takeWhile Char.isDigit ≠ [] := by simpa using hne
          refine ⟨c :: (sign ++ (splitSign cs).2.takeWhile Char.isDigit), ?_, ?_, ?_,
            fun rest hrest => ?_⟩
          · rw [List.cons_append, List.append_assoc, List.takeWhile_append_dropWhile, ← hcs]
          · intro d hd
            rcases List.mem_cons.mp hd with rfl | hd
            · rcases (Bool.or_eq_true _ _).mp he with he | he
              · rw [eq_of_beq he]
                decide
              · rw [eq_of_beq he]
                decide
            · rcases List.mem_append.mp hd with hd | hd
              · exact hsign d hd
              · exact isNumeral_of_isDigit (hpower d hd)
          · intro d hd
            obtain rfl : c = d := by simpa using hd
            simpa using he
          · obtain ⟨htake, hdrop⟩ := takeWhile_digits hpower hrest.not_digit
            rw [List.cons_append, readExponent_cons, if_pos he, List.append_assoc,
              hsplit _ rest hpowerNe hpower, htake, hdrop, if_neg hne]
      · cases h
        exact ⟨[], rfl, by simp, by simp, fun rest hrest => readExponent_of_halts hrest _ _ _ _⟩

def readPlaces (negative : Bool) (whole : List Char) :
    List Char → Except Fault (Decimal × List Char)
  | '.' :: rest =>
    if (rest.takeWhile Char.isDigit).isEmpty then .error (digitFault rest)
    else
      readExponent negative (digitsValue (whole ++ rest.takeWhile Char.isDigit))
        (rest.takeWhile Char.isDigit).length false (rest.dropWhile Char.isDigit)
  | rest => readExponent negative (digitsValue whole) 0 true rest

/-- Digits that can be the whole part of a number: there is one, and a leading zero stands
alone. -/
def IsWholePart (whole : List Char) : Prop :=
  (∀ c ∈ whole, c.isDigit = true) ∧ whole ≠ [] ∧ ∀ c cs, whole ≠ '0' :: c :: cs

theorem readUnsigned_append {whole after : List Char} (hwhole : IsWholePart whole)
    (hafter : ∀ c ∈ after.head?, c.isDigit = false) (negative : Bool) :
    readUnsigned negative (whole ++ after) = readPlaces negative whole after := by
  obtain ⟨hdigits, hnil, hzero⟩ := hwhole
  obtain ⟨htake, hdrop⟩ := takeWhile_digits hdigits hafter
  simp only [readUnsigned, htake, hdrop]
  rfl

theorem exists_readPlaces_of_readUnsigned {negative : Bool} {cs : List Char}
    {x : Decimal × List Char} (h : readUnsigned negative cs = .ok x) :
    ∃ whole after, cs = whole ++ after ∧ IsWholePart whole ∧
      readPlaces negative whole after = .ok x := by
  refine ⟨cs.takeWhile Char.isDigit, cs.dropWhile Char.isDigit,
    List.takeWhile_append_dropWhile.symm, ?_, ?_⟩
  · unfold readUnsigned at h
    refine ⟨isDigit_of_mem_takeWhile, ?_, ?_⟩
    · intro hnil
      simp [hnil] at h
    · intro c more hzero
      simp [hzero] at h
  · simp only [readUnsigned] at h
    split at h
    · cases h
    · cases h
    · exact h

theorem exists_front_of_readPlaces {negative : Bool} {whole after left : List Char} {n : Decimal}
    (h : readPlaces negative whole after = .ok (n, left)) :
    ∃ front, after = front ++ left ∧ (∀ c ∈ front, isNumeral c = true) ∧
      (∀ c ∈ front.head?, c.isDigit = false) ∧
      ∀ rest, Halts rest → readPlaces negative whole (front ++ rest) = .ok (n, rest) := by
  unfold readPlaces at h
  split at h
  · rename_i places
    split at h
    · cases h
    · rename_i hne
      obtain ⟨front, hfront, hnumeral, hhead, hread⟩ := exists_front_of_readExponent h
      have hdigits : ∀ d ∈ places.takeWhile Char.isDigit, d.isDigit = true :=
        isDigit_of_mem_takeWhile
      refine ⟨'.' :: (places.takeWhile Char.isDigit ++ front), ?_, ?_, ?_, fun rest hrest => ?_⟩
      · rw [List.cons_append, List.append_assoc, ← hfront, List.takeWhile_append_dropWhile]
      · intro d hd
        rcases List.mem_cons.mp hd with rfl | hd
        · decide
        · rcases List.mem_append.mp hd with hd | hd
          · exact isNumeral_of_isDigit (hdigits d hd)
          · exact hnumeral d hd
      · rintro d ⟨⟩
        decide
      · have hnot : ∀ c ∈ front.head?, c.isDigit = false := by
          intro c hc
          rcases hhead c hc with rfl | rfl <;> decide
        obtain ⟨htake, hdrop⟩ := takeWhile_digits hdigits (hrest.not_digit_append hnot)
        rw [List.cons_append, List.append_assoc, readPlaces, htake, hdrop, if_neg hne]
        exact hread rest hrest
  · rename_i hpoint
    obtain ⟨front, rfl, hnumeral, hhead, hread⟩ := exists_front_of_readExponent h
    refine ⟨front, rfl, hnumeral, ?_, fun rest hrest => ?_⟩
    · intro c hc
      rcases hhead c hc with rfl | rfl <;> decide
    · rw [readPlaces]
      · exact hread rest hrest
      · intro more hmore
        cases front with
        | nil =>
            rw [List.nil_append] at hmore
            subst hmore
            exact hrest.ne (d := '.') (by decide) rfl
        | cons c tail =>
            obtain ⟨rfl, -⟩ := List.cons.inj hmore
            rcases hhead '.' rfl with hdot | hdot <;> exact absurd hdot (by decide)

/-- **Reading a number takes numerals off the text, whatever follows that does not go on with
it.** -/
theorem exists_front_of_readUnsigned {negative : Bool} {cs left : List Char} {n : Decimal}
    (h : readUnsigned negative cs = .ok (n, left)) :
    ∃ front, cs = front ++ left ∧ (∀ c ∈ front, isNumeral c = true) ∧
      (∃ c ∈ front.head?, c.isDigit = true) ∧
      ∀ rest, Halts rest → readUnsigned negative (front ++ rest) = .ok (n, rest) := by
  obtain ⟨whole, after, rfl, hwhole, hplaces⟩ := exists_readPlaces_of_readUnsigned h
  obtain ⟨front, rfl, hnumeral, hhead, hread⟩ := exists_front_of_readPlaces hplaces
  refine ⟨whole ++ front, (List.append_assoc _ _ _).symm, ?_, ?_, fun rest hrest => ?_⟩
  · intro d hd
    rcases List.mem_append.mp hd with hd | hd
    · exact isNumeral_of_isDigit (hwhole.1 d hd)
    · exact hnumeral d hd
  · cases whole with
    | nil => exact absurd rfl hwhole.2.1
    | cons d more => exact ⟨d, rfl, hwhole.1 d List.mem_cons_self⟩
  · rw [List.append_assoc, readUnsigned_append hwhole (hrest.not_digit_append hhead)]
    exact hread rest hrest

end Document

end ModuleGraph.Json
