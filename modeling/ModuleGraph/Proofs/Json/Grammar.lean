import ModuleGraph.Proofs.Json.Lexemes

set_option autoImplicit false

/-! # The texts of a document

`Spells` is the grammar of JSON, as a relation between documents and the texts that are read as
them. The reader follows it in both directions: a text that it reads to the end of a value spells
this value (`spells_of_readValue`), and a text that spells a document is read as this document
(`Spells.reads`). So what is read of a whole text is known from the grammar alone
(`spells_iff_readValue`), and facts about the reader become inductions over the grammar.
-/

namespace ModuleGraph.Json

namespace Document

/-! ## The grammar -/

def Blank (gap : List Char) : Prop := ∀ c ∈ gap, isBlank c = true

/-- A number after its sign. -/
structure SpellsNumber (negative : Bool) (n : Decimal) (cs : List Char) : Prop where
  numerals : ∀ c ∈ cs, isNumeral c = true
  digit : ∃ c ∈ cs.head?, c.isDigit = true
  reads : ∀ rest, Halts rest → readUnsigned negative (cs ++ rest) = .ok (n, rest)

structure SpellsText (r : Reading) (cs : List Char) : Prop where
  body : Body cs
  reads : ∀ rest, readString [] true (cs ++ rest) = .ok (r, rest)

/-- The parts of a text. -/
inductive Phrase where
  /-- A value without any blank around it. -/
  | value (d : Document)
  /-- A value with blanks around it. -/
  | padded (d : Document)
  /-- The items of an array, of which there is at least one. -/
  | items (ds : List Document)
  /-- The members of an object, of which there is at least one. -/
  | members (ms : List (Reading × Document))

/-- Which texts are read as which phrases. -/
inductive Spells : Phrase → List Char → Prop where
  | null : Spells (.value .null) ['n', 'u', 'l', 'l']
  | yes : Spells (.value (.bool true)) ['t', 'r', 'u', 'e']
  | no : Spells (.value (.bool false)) ['f', 'a', 'l', 's', 'e']
  | negative {n : Decimal} {cs : List Char} : SpellsNumber true n cs →
      Spells (.value (.number n)) ('-' :: cs)
  | unsigned {n : Decimal} {cs : List Char} : SpellsNumber false n cs →
      Spells (.value (.number n)) cs
  | text {r : Reading} {cs : List Char} : SpellsText r cs → Spells (.value (.text r)) ('"' :: cs)
  | emptyArray {gap : List Char} : Blank gap →
      Spells (.value (.array [] none)) ('[' :: (gap ++ [']']))
  | array {ds : List Document} {cs : List Char} : Spells (.items ds) cs →
      Spells (.value (.array ds none)) ('[' :: (cs ++ [']']))
  | emptyObject {gap : List Char} : Blank gap →
      Spells (.value (.object [] none)) ('\x7b' :: (gap ++ ['\x7d']))
  | object {ms : List (Reading × Document)} {cs : List Char} : Spells (.members ms) cs →
      Spells (.value (.object ms none)) ('\x7b' :: (cs ++ ['\x7d']))
  | padded {d : Document} {gap cs gap' : List Char} : Blank gap → Spells (.value d) cs →
      Blank gap' → Spells (.padded d) (gap ++ (cs ++ gap'))
  | lastItem {d : Document} {cs : List Char} : Spells (.padded d) cs → Spells (.items [d]) cs
  | item {d : Document} {ds : List Document} {cs more : List Char} : Spells (.padded d) cs →
      Spells (.items ds) more → Spells (.items (d :: ds)) (cs ++ ',' :: more)
  | lastMember {key : Reading} {d : Document} {gap k gap' cs : List Char} : Blank gap →
      SpellsText key k → Blank gap' → Spells (.padded d) cs →
      Spells (.members [(key, d)]) (gap ++ '"' :: (k ++ (gap' ++ ':' :: cs)))
  | member {key : Reading} {d : Document} {ms : List (Reading × Document)}
      {gap k gap' cs more : List Char} : Blank gap → SpellsText key k → Blank gap' →
      Spells (.padded d) cs → Spells (.members ms) more →
      Spells (.members ((key, d) :: ms)) (gap ++ '"' :: (k ++ (gap' ++ ':' :: (cs ++ ',' :: more))))

/-! ## Blanks -/

theorem blank_nil : Blank [] := by simp [Blank]

theorem Blank.dropWhile_append {gap : List Char} (h : Blank gap) (cs : List Char) :
    (gap ++ cs).dropWhile isBlank = cs.dropWhile isBlank :=
  List.dropWhile_append_of_pos h

theorem blank_takeWhile (cs : List Char) : Blank (cs.takeWhile isBlank) :=
  List.all_eq_true.mp List.all_takeWhile

/-- Every text starts with blanks, or with none. -/
theorem exists_gap (cs : List Char) : ∃ gap, Blank gap ∧ cs = gap ++ cs.dropWhile isBlank :=
  ⟨cs.takeWhile isBlank, blank_takeWhile cs, List.takeWhile_append_dropWhile.symm⟩

theorem isNumeral_of_isBlank {c : Char} (h : isBlank c = true) : isNumeral c = false := by
  simp only [isBlank, Bool.or_eq_true, beq_iff_eq] at h
  rcases h with ((rfl | rfl) | rfl) | rfl <;> decide

theorem Blank.halts {gap rest : List Char} (h : Blank gap) (hrest : Halts rest) :
    Halts (gap ++ rest) := by
  cases gap with
  | nil => exact hrest
  | cons c more => exact .cons (isNumeral_of_isBlank (h c List.mem_cons_self)) _

/-! ## What the reader takes -/

theorem scalar_eq_some {r : Except Fault (Document × List Char)} {d : Document}
    {rest : List Char} (h : scalar r = (d, some rest)) : r = .ok (d, rest) := by
  unfold scalar at h
  split at h
  · cases h
    rfl
  · cases h

theorem exists_of_scalar_map {α : Type} {r : Except Fault (α × List Char)} {f : α → Document}
    {d : Document} {rest : List Char}
    (h : scalar (r.map fun (a, left) => (f a, left)) = (d, some rest)) :
    ∃ a, r = .ok (a, rest) ∧ d = f a := by
  have hok := scalar_eq_some h
  cases r with
  | error e => cases hok
  | ok x =>
      cases hok
      exact ⟨x.1, rfl, rfl⟩

theorem readWord_append (value : Document) (word rest : List Char) :
    readWord value word (word ++ rest) = .ok (value, rest) := by
  induction word with
  | nil => rfl
  | cons c word ih => rw [List.cons_append, readWord, if_pos rfl, ih]

theorem readWord_eq_ok {value d : Document} {word cs rest : List Char}
    (h : readWord value word cs = .ok (d, rest)) : d = value ∧ cs = word ++ rest := by
  induction word generalizing cs with
  | nil =>
      cases h
      exact ⟨rfl, rfl⟩
  | cons c word ih =>
      cases cs with
      | nil => cases h
      | cons e cs =>
          rw [readWord] at h
          split at h
          · rename_i hc
            obtain ⟨hd, hcs⟩ := ih h
            exact ⟨hd, by rw [hc, hcs, List.cons_append]⟩
          · cases h

theorem dropWhile_dropWhile (cs : List Char) :
    (cs.dropWhile isBlank).dropWhile isBlank = cs.dropWhile isBlank := by
  obtain ⟨gap, hgap, hcs⟩ := exists_gap cs
  rw [← hgap.dropWhile_append (cs.dropWhile isBlank), ← hcs]

/-- The readers pass over the blanks before what they read. -/
theorem readValue_dropWhile (fuel : Nat) (cs : List Char) :
    readValue fuel (cs.dropWhile isBlank) = readValue fuel cs := by
  cases fuel with
  | zero => rw [readValue, readValue]
  | succ fuel => rw [readValue, readValue, dropWhile_dropWhile]

theorem readItems_dropWhile (fuel : Nat) (acc : List Document) (cs : List Char) :
    readItems fuel acc (cs.dropWhile isBlank) = readItems fuel acc cs := by
  cases fuel with
  | zero => rw [readItems, readItems]
  | succ fuel => rw [readItems, readItems, dropWhile_dropWhile]

theorem readMembers_dropWhile (fuel : Nat) (acc : List (Reading × Document)) (cs : List Char) :
    readMembers fuel acc (cs.dropWhile isBlank) = readMembers fuel acc cs := by
  cases fuel with
  | zero => rw [readMembers, readMembers]
  | succ fuel => rw [readMembers, readMembers, dropWhile_dropWhile]

/-- The answer about the rest of an array, once the next item is read. -/
theorem readItems_eq_some {fuel : Nat} {acc : List Document} {cs rest : List Char} {d : Document}
    (h : readItems (fuel + 1) acc cs = (d, some rest)) :
    ∃ item more, readValue fuel (cs.dropWhile isBlank) = (item, some more) ∧
      ((more.dropWhile isBlank = ']' :: rest ∧ d = .array (item :: acc).reverse none) ∨
        ∃ next, more.dropWhile isBlank = ',' :: next ∧
          readItems fuel (item :: acc) next = (d, some rest)) := by
  rw [readItems] at h
  split at h
  · cases h
  · cases h
  · split at h
    · cases h
    · rename_i item more hitem
      refine ⟨item, more, hitem, ?_⟩
      split at h
      · rename_i hmore
        cases h
        exact Or.inl ⟨hmore, rfl⟩
      · rename_i next hmore
        exact Or.inr ⟨next, hmore, h⟩
      · cases h
      · cases h

/-- The answer about the rest of an object, once the next member is read. -/
theorem readMembers_eq_some {fuel : Nat} {acc : List (Reading × Document)}
    {cs rest : List Char} {d : Document} (h : readMembers (fuel + 1) acc cs = (d, some rest)) :
    ∃ key value front back more, cs.dropWhile isBlank = '"' :: front ∧
      readString [] true front = .ok (key, back) ∧
      (∃ text, back.dropWhile isBlank = ':' :: text ∧
        readValue fuel text = (value, some more)) ∧
      ((more.dropWhile isBlank = '\x7d' :: rest ∧
          d = .object ((key, value) :: acc).reverse none) ∨
        ∃ next, more.dropWhile isBlank = ',' :: next ∧
          readMembers fuel ((key, value) :: acc) next = (d, some rest)) := by
  rw [readMembers] at h
  split at h
  · cases h
  · rename_i front hfront
    split at h
    · cases h
    · rename_i key back hkey
      split at h
      · rename_i text htext
        split at h
        · cases h
        · rename_i value more hvalue
          refine ⟨key, value, front, back, more, hfront, hkey, ⟨text, htext, hvalue⟩, ?_⟩
          split at h
          · rename_i hmore
            cases h
            exact Or.inl ⟨hmore, rfl⟩
          · rename_i next hmore
            exact Or.inr ⟨next, hmore, h⟩
          · cases h
          · cases h
      · cases h
      · cases h
  · cases h

theorem spellsText_of_readString {cs left : List Char} {r : Reading}
    (h : readString [] true cs = .ok (r, left)) : ∃ front, cs = front ++ left ∧ SpellsText r front := by
  obtain ⟨front, hcs, hbody, hread⟩ := exists_front_of_readString h
  exact ⟨front, hcs, hbody, hread⟩

theorem spellsNumber_of_readUnsigned {negative : Bool} {cs left : List Char} {n : Decimal}
    (h : readUnsigned negative cs = .ok (n, left)) :
    ∃ front, cs = front ++ left ∧ SpellsNumber negative n front := by
  obtain ⟨front, hcs, hnumerals, hdigit, hread⟩ := exists_front_of_readUnsigned h
  exact ⟨front, hcs, hnumerals, hdigit, hread⟩

/-- What the three readers have taken when they are through, for one amount of fuel. -/
structure Sound (fuel : Nat) : Prop where
  value : ∀ {cs rest : List Char} {d : Document}, readValue fuel cs = (d, some rest) →
    ∃ gap front, Blank gap ∧ cs = gap ++ (front ++ rest) ∧ Spells (.value d) front
  items : ∀ {acc : List Document} {cs rest : List Char} {d : Document},
    readItems fuel acc cs = (d, some rest) →
      ∃ ds front, d = .array (acc.reverse ++ ds) none ∧ cs = front ++ ']' :: rest ∧
        Spells (.items ds) front
  members : ∀ {acc : List (Reading × Document)} {cs rest : List Char} {d : Document},
    readMembers fuel acc cs = (d, some rest) →
      ∃ ms front, d = .object (acc.reverse ++ ms) none ∧ cs = front ++ '\x7d' :: rest ∧
        Spells (.members ms) front

theorem Blank.append {gap gap' : List Char} (h : Blank gap) (h' : Blank gap') :
    Blank (gap ++ gap') := by
  intro c hc
  rcases List.mem_append.mp hc with hc | hc
  · exact h c hc
  · exact h' c hc

/-- A value that is read up to a character, with the blanks around it. -/
theorem Sound.padded {fuel : Nat} (h : Sound fuel) {gap cs more rest : List Char} {d : Document}
    {c : Char} (hgap : Blank gap) (hread : readValue fuel cs = (d, some more))
    (hmore : more.dropWhile isBlank = c :: rest) :
    ∃ front, gap ++ cs = front ++ c :: rest ∧ Spells (.padded d) front := by
  obtain ⟨before, front, hbefore, rfl, hfront⟩ := h.value hread
  obtain ⟨after, hafter, hsplit⟩ := exists_gap more
  rw [hmore] at hsplit
  refine ⟨(gap ++ before) ++ (front ++ after), ?_, .padded (hgap.append hbefore) hfront hafter⟩
  rw [hsplit]
  simp

theorem Sound.items_succ {fuel : Nat} (h : Sound fuel) {acc : List Document} {cs rest : List Char}
    {d : Document} (hread : readItems (fuel + 1) acc cs = (d, some rest)) :
    ∃ ds front, d = .array (acc.reverse ++ ds) none ∧ cs = front ++ ']' :: rest ∧
      Spells (.items ds) front := by
  obtain ⟨item, more, hitem, hmore⟩ := readItems_eq_some hread
  obtain ⟨gap, hgap, hcs⟩ := exists_gap cs
  rcases hmore with ⟨hmore, rfl⟩ | ⟨next, hmore, hnext⟩
  · obtain ⟨front, hfront, hspells⟩ := h.padded hgap hitem hmore
    exact ⟨[item], front, by simp, by rw [hcs, hfront], .lastItem hspells⟩
  · obtain ⟨front, hfront, hspells⟩ := h.padded hgap hitem hmore
    obtain ⟨ds, tail, rfl, rfl, htail⟩ := h.items hnext
    refine ⟨item :: ds, front ++ ',' :: tail, by simp, ?_, .item hspells htail⟩
    rw [hcs, hfront]
    simp

theorem Sound.members_succ {fuel : Nat} (h : Sound fuel) {acc : List (Reading × Document)}
    {cs rest : List Char} {d : Document}
    (hread : readMembers (fuel + 1) acc cs = (d, some rest)) :
    ∃ ms front, d = .object (acc.reverse ++ ms) none ∧ cs = front ++ '\x7d' :: rest ∧
      Spells (.members ms) front := by
  obtain ⟨key, value, front, back, more, hfront, hkey, ⟨text, htext, hvalue⟩, hmore⟩ :=
    readMembers_eq_some hread
  obtain ⟨gap, hgap, hcs⟩ := exists_gap cs
  obtain ⟨k, rfl, hk⟩ := spellsText_of_readString hkey
  obtain ⟨gap', hgap', hback⟩ := exists_gap back
  rcases hmore with ⟨hmore, rfl⟩ | ⟨next, hmore, hnext⟩
  · obtain ⟨body, hbody, hspells⟩ := h.padded blank_nil hvalue hmore
    refine ⟨[(key, value)], _, by simp, ?_, .lastMember hgap hk hgap' hspells⟩
    rw [hcs, hfront, hback, htext, ← List.nil_append text, hbody]
    simp
  · obtain ⟨body, hbody, hspells⟩ := h.padded blank_nil hvalue hmore
    obtain ⟨ms, tail, rfl, rfl, htail⟩ := h.members hnext
    refine ⟨(key, value) :: ms, _, by simp, ?_, .member hgap hk hgap' hspells htail⟩
    rw [hcs, hfront, hback, htext, ← List.nil_append text, hbody]
    simp

theorem Sound.value_succ {fuel : Nat} (h : Sound fuel) {cs rest : List Char} {d : Document}
    (hread : readValue (fuel + 1) cs = (d, some rest)) :
    ∃ gap front, Blank gap ∧ cs = gap ++ (front ++ rest) ∧ Spells (.value d) front := by
  obtain ⟨gap, hgap, hcs⟩ := exists_gap cs
  suffices hfront : ∃ front, cs.dropWhile isBlank = front ++ rest ∧ Spells (.value d) front by
    obtain ⟨front, hfront, hspells⟩ := hfront
    exact ⟨gap, front, hgap, by rw [← hfront, ← hcs], hspells⟩
  rw [readValue] at hread
  split at hread
  · cases hread
  · rename_i word hword
    obtain ⟨rfl, rfl⟩ := readWord_eq_ok (scalar_eq_some hread)
    exact ⟨_, hword, .null⟩
  · rename_i word hword
    obtain ⟨rfl, rfl⟩ := readWord_eq_ok (scalar_eq_some hread)
    exact ⟨_, hword, .yes⟩
  · rename_i word hword
    obtain ⟨rfl, rfl⟩ := readWord_eq_ok (scalar_eq_some hread)
    exact ⟨_, hword, .no⟩
  · rename_i text htext
    obtain ⟨r, hr, rfl⟩ := exists_of_scalar_map hread
    obtain ⟨front, rfl, hspells⟩ := spellsText_of_readString hr
    exact ⟨'"' :: front, htext, .text hspells⟩
  · rename_i text htext
    obtain ⟨n, hn, rfl⟩ := exists_of_scalar_map hread
    obtain ⟨front, rfl, hspells⟩ := spellsNumber_of_readUnsigned hn
    exact ⟨'-' :: front, htext, .negative hspells⟩
  · rename_i text htext
    obtain ⟨gap, hgap, hsplit⟩ := exists_gap text
    split at hread
    · rename_i more hmore
      cases hread
      refine ⟨'[' :: (gap ++ [']']), ?_, .emptyArray hgap⟩
      rw [htext, hsplit, hmore]
      simp
    · rw [readItems_dropWhile] at hread
      obtain ⟨ds, front, rfl, rfl, hspells⟩ := h.items hread
      refine ⟨'[' :: (front ++ [']']), ?_, .array hspells⟩
      rw [htext]
      simp
  · rename_i text htext
    obtain ⟨gap, hgap, hsplit⟩ := exists_gap text
    split at hread
    · rename_i more hmore
      cases hread
      refine ⟨'\x7b' :: (gap ++ ['\x7d']), ?_, .emptyObject hgap⟩
      rw [htext, hsplit, hmore]
      simp
    · rw [readMembers_dropWhile] at hread
      obtain ⟨ms, front, rfl, rfl, hspells⟩ := h.members hread
      refine ⟨'\x7b' :: (front ++ ['\x7d']), ?_, .object hspells⟩
      rw [htext]
      simp
  · rename_i c text _ _ _ _ _ _ _ htext
    split at hread
    · obtain ⟨n, hn, rfl⟩ := exists_of_scalar_map hread
      obtain ⟨front, hfront, hspells⟩ := spellsNumber_of_readUnsigned hn
      exact ⟨front, by rw [htext, hfront], .unsigned hspells⟩
    · cases hread

theorem sound (fuel : Nat) : Sound fuel := by
  induction fuel with
  | zero =>
      refine ⟨fun h => ?_, fun h => ?_, fun h => ?_⟩
      · rw [readValue] at h
        cases h
      · rw [readItems] at h
        cases h
      · rw [readMembers] at h
        cases h
  | succ fuel ih => exact ⟨ih.value_succ, ih.items_succ, ih.members_succ⟩

/-- **A text that is read up to the end of a value spells this value.** -/
theorem spells_of_readValue {fuel : Nat} {cs rest : List Char} {d : Document}
    (h : readValue fuel cs = (d, some rest)) :
    ∃ gap front, Blank gap ∧ cs = gap ++ (front ++ rest) ∧ Spells (.value d) front :=
  (sound fuel).value h

/-! ## What the reader accepts -/

theorem dropWhile_of_not_blank {c : Char} (hc : isBlank c = false) (cs : List Char) :
    (c :: cs).dropWhile isBlank = c :: cs :=
  List.dropWhile_cons_of_neg (by simp [hc])

/-- A value is read from the first character after the blanks before it. -/
theorem dropWhile_gap {gap : List Char} (hgap : Blank gap) {c : Char} (hc : isBlank c = false)
    (cs : List Char) : (gap ++ c :: cs).dropWhile isBlank = c :: cs := by
  rw [hgap.dropWhile_append, dropWhile_of_not_blank hc]

theorem isBlank_of_isDigit {c : Char} (h : c.isDigit = true) : isBlank c = false := by
  rw [← Bool.not_eq_true]
  intro hblank
  have hnot := isNumeral_of_isBlank hblank
  rw [isNumeral_of_isDigit h] at hnot
  cases hnot

/-- A value starts with a character that is no blank and closes nothing. -/
theorem Spells.head {d : Document} {cs : List Char} (h : Spells (.value d) cs) :
    ∃ c t, cs = c :: t ∧ isBlank c = false ∧ c ≠ ']' := by
  cases h with
  | null => exact ⟨_, _, rfl, by decide, by decide⟩
  | yes => exact ⟨_, _, rfl, by decide, by decide⟩
  | no => exact ⟨_, _, rfl, by decide, by decide⟩
  | negative => exact ⟨_, _, rfl, by decide, by decide⟩
  | text => exact ⟨_, _, rfl, by decide, by decide⟩
  | emptyArray => exact ⟨_, _, rfl, by decide, by decide⟩
  | array => exact ⟨_, _, rfl, by decide, by decide⟩
  | emptyObject => exact ⟨_, _, rfl, by decide, by decide⟩
  | object => exact ⟨_, _, rfl, by decide, by decide⟩
  | unsigned hn =>
      obtain ⟨c, hc, hdigit⟩ := hn.digit
      obtain ⟨t, rfl⟩ := List.head?_eq_some_iff.mp hc
      refine ⟨c, t, rfl, isBlank_of_isDigit hdigit, ?_⟩
      rintro rfl
      exact absurd hdigit (by decide)

theorem Spells.padded_head {d : Document} {cs : List Char} (h : Spells (.padded d) cs)
    (rest : List Char) : ∃ c t, (cs ++ rest).dropWhile isBlank = c :: t ∧ c ≠ ']' := by
  cases h with
  | @padded _ gap front gap' hgap hvalue _ =>
      obtain ⟨c, t, rfl, hblank, hc⟩ := hvalue.head
      refine ⟨c, t ++ (gap' ++ rest), ?_, hc⟩
      rw [List.append_assoc, hgap.dropWhile_append, List.append_assoc, List.cons_append,
        dropWhile_of_not_blank hblank]

theorem Spells.items_head {ds : List Document} {cs : List Char} (h : Spells (.items ds) cs)
    (rest : List Char) : ∃ c t, (cs ++ rest).dropWhile isBlank = c :: t ∧ c ≠ ']' := by
  cases h with
  | lastItem hspells => exact hspells.padded_head rest
  | item hspells _ =>
      rw [List.append_assoc]
      exact hspells.padded_head _

theorem Spells.members_head {ms : List (Reading × Document)} {cs : List Char}
    (h : Spells (.members ms) cs) (rest : List Char) :
    ∃ t, (cs ++ rest).dropWhile isBlank = '"' :: t := by
  cases h with
  | lastMember hgap =>
      rw [List.append_assoc, List.cons_append, dropWhile_gap hgap (by decide)]
      exact ⟨_, rfl⟩
  | member hgap =>
      rw [List.append_assoc, List.cons_append, dropWhile_gap hgap (by decide)]
      exact ⟨_, rfl⟩

theorem readValue_of_digit {fuel : Nat} {cs t : List Char} {c : Char}
    (hcs : cs.dropWhile isBlank = c :: t) (hc : c.isDigit = true) :
    readValue (fuel + 1) cs
      = scalar ((readUnsigned false (c :: t)).map fun (n, r) => (.number n, r)) := by
  have hne : ∀ e : Char, e.isDigit = false → c ≠ e := by
    rintro e he rfl
    rw [hc] at he
    cases he
  rw [readValue, hcs]
  simp [hne 'n' (by decide), hne 't' (by decide), hne 'f' (by decide), hne '"' (by decide),
    hne '-' (by decide), hne '[' (by decide), hne '\x7b' (by decide), hc]

/-- What the readers make of the text of a phrase, given enough fuel: they read the phrase and
leave what follows it. -/
def Phrase.Reads : Phrase → List Char → Prop
  | .value d, cs => ∀ fuel gap rest, Blank gap → cs.length ≤ fuel → Halts rest →
      readValue fuel (gap ++ (cs ++ rest)) = (d, some rest)
  | .padded d, cs => ∀ fuel rest, cs.length ≤ fuel → Halts rest →
      ∃ gap, Blank gap ∧ readValue fuel (cs ++ rest) = (d, some (gap ++ rest))
  | .items ds, cs => ∀ fuel acc rest, cs.length < fuel →
      readItems fuel acc (cs ++ ']' :: rest) = (.array (acc.reverse ++ ds) none, some rest)
  | .members ms, cs => ∀ fuel acc rest, cs.length < fuel →
      readMembers fuel acc (cs ++ '\x7d' :: rest) = (.object (acc.reverse ++ ms) none, some rest)

def afterItem (fuel : Nat) (acc : List Document) : List Char → Progress
  | ']' :: rest => (.array acc.reverse none, some rest)
  | ',' :: rest => readItems fuel acc rest
  | [] => (.array acc.reverse (some .cutShort), none)
  | _ :: _ => (.array acc.reverse (some .malformed), none)

def afterMember (fuel : Nat) (acc : List (Reading × Document)) : List Char → Progress
  | '\x7d' :: rest => (.object acc.reverse none, some rest)
  | ',' :: rest => readMembers fuel acc rest
  | [] => (.object acc.reverse (some .cutShort), none)
  | _ :: _ => (.object acc.reverse (some .malformed), none)

/-- An item that is followed by the character `c`. -/
theorem readItems_padded {d : Document} {cs rest : List Char} {fuel : Nat} {acc : List Document}
    {c : Char} (hspells : Spells (.padded d) cs) (hreads : (Phrase.padded d).Reads cs)
    (hfuel : cs.length ≤ fuel) (hc : isNumeral c = false) (hblank : isBlank c = false) :
    readItems (fuel + 1) acc (cs ++ c :: rest) = afterItem fuel (d :: acc) (c :: rest) := by
  obtain ⟨first, t, hdrop, hfirst⟩ := hspells.padded_head (c :: rest)
  obtain ⟨gap, hgap, hvalue⟩ := hreads fuel (c :: rest) hfuel (.cons hc rest)
  have hrest := dropWhile_gap hgap hblank rest
  rw [readItems]
  split
  · rename_i hnil
    rw [hdrop] at hnil
    cases hnil
  · rename_i hclose
    rw [hdrop] at hclose
    obtain ⟨rfl, -⟩ := List.cons.inj hclose
    exact absurd rfl hfirst
  · rw [readValue_dropWhile, hvalue]
    simp only [hrest]
    rfl

/-- A member that is followed by the character `c`. -/
theorem readMembers_padded {key : Reading} {d : Document} {gap k gap' cs rest : List Char}
    {fuel : Nat} {acc : List (Reading × Document)} {c : Char} (hgap : Blank gap)
    (hkey : SpellsText key k) (hgap' : Blank gap') (hreads : (Phrase.padded d).Reads cs)
    (hfuel : cs.length ≤ fuel) (hc : isNumeral c = false) (hblank : isBlank c = false) :
    readMembers (fuel + 1) acc (gap ++ '"' :: (k ++ (gap' ++ ':' :: (cs ++ c :: rest))))
      = afterMember fuel ((key, d) :: acc) (c :: rest) := by
  obtain ⟨after, hafter, hvalue⟩ := hreads fuel (c :: rest) hfuel (.cons hc rest)
  have hrest := dropWhile_gap hafter hblank rest
  have hcolon := dropWhile_gap hgap' (by decide : isBlank ':' = false) (cs ++ c :: rest)
  have hquote := dropWhile_gap hgap (by decide : isBlank '"' = false)
    (k ++ (gap' ++ ':' :: (cs ++ c :: rest)))
  rw [readMembers]
  simp only [hquote, hkey.reads, hcolon, hvalue, hrest]
  rfl

theorem exists_succ_of_le {c : Char} {cs : List Char} {fuel : Nat}
    (h : (c :: cs).length ≤ fuel) : ∃ n, fuel = n + 1 := by
  rw [List.length_cons] at h
  exact ⟨fuel - 1, by omega⟩

/-- **A text that spells a phrase is read as this phrase.** -/
theorem Spells.reads {phrase : Phrase} {cs : List Char} (h : Spells phrase cs) :
    phrase.Reads cs := by
  induction h with
  | null =>
      intro fuel gap rest hgap hfuel _
      obtain ⟨fuel, rfl⟩ := exists_succ_of_le hfuel
      show readValue (fuel + 1) (gap ++ 'n' :: (['u', 'l', 'l'] ++ rest)) = _
      rw [readValue, dropWhile_gap hgap (by decide)]
      simp only [readWord_append, scalar]
  | yes =>
      intro fuel gap rest hgap hfuel _
      obtain ⟨fuel, rfl⟩ := exists_succ_of_le hfuel
      show readValue (fuel + 1) (gap ++ 't' :: (['r', 'u', 'e'] ++ rest)) = _
      rw [readValue, dropWhile_gap hgap (by decide)]
      simp only [readWord_append, scalar]
  | no =>
      intro fuel gap rest hgap hfuel _
      obtain ⟨fuel, rfl⟩ := exists_succ_of_le hfuel
      show readValue (fuel + 1) (gap ++ 'f' :: (['a', 'l', 's', 'e'] ++ rest)) = _
      rw [readValue, dropWhile_gap hgap (by decide)]
      simp only [readWord_append, scalar]
  | negative hn =>
      intro fuel gap rest hgap hfuel hrest
      obtain ⟨fuel, rfl⟩ := exists_succ_of_le hfuel
      rw [readValue, List.cons_append, dropWhile_gap hgap (by decide)]
      simp only [hn.reads rest hrest, Except.map, scalar]
  | @unsigned n cs hn =>
      intro fuel gap rest hgap hfuel hrest
      obtain ⟨c, hc, hdigit⟩ := hn.digit
      obtain ⟨t, rfl⟩ := List.head?_eq_some_iff.mp hc
      obtain ⟨fuel, rfl⟩ := exists_succ_of_le hfuel
      have hread := hn.reads rest hrest
      rw [List.cons_append] at hread ⊢
      rw [readValue_of_digit (dropWhile_gap hgap (isBlank_of_isDigit hdigit) _) hdigit, hread]
      rfl
  | text ht =>
      intro fuel gap rest hgap hfuel _
      obtain ⟨fuel, rfl⟩ := exists_succ_of_le hfuel
      rw [readValue, List.cons_append, dropWhile_gap hgap (by decide)]
      simp only [ht.reads, Except.map, scalar]
  | @emptyArray inner hinner =>
      intro fuel gap rest hgap hfuel _
      obtain ⟨fuel, rfl⟩ := exists_succ_of_le hfuel
      rw [readValue, List.cons_append, List.append_assoc, dropWhile_gap hgap (by decide)]
      simp only [List.cons_append, List.nil_append,
        dropWhile_gap hinner (by decide : isBlank ']' = false)]
  | @array ds cs hitems ih =>
      intro fuel gap rest hgap hfuel _
      obtain ⟨fuel, rfl⟩ := exists_succ_of_le hfuel
      simp only [List.length_cons, List.length_append, List.length_nil] at hfuel
      rw [readValue, List.cons_append, List.append_assoc, dropWhile_gap hgap (by decide)]
      simp only
      split
      · rename_i hclose
        obtain ⟨c, t, hhead, hc⟩ := hitems.items_head ([']'] ++ rest)
        rw [hhead] at hclose
        exact absurd (List.cons.inj hclose).1 hc
      · rw [readItems_dropWhile]
        exact ih fuel [] rest (by omega)
  | @emptyObject inner hinner =>
      intro fuel gap rest hgap hfuel _
      obtain ⟨fuel, rfl⟩ := exists_succ_of_le hfuel
      rw [readValue, List.cons_append, List.append_assoc, dropWhile_gap hgap (by decide)]
      simp only [List.cons_append, List.nil_append,
        dropWhile_gap hinner (by decide : isBlank '\x7d' = false)]
  | @object ms cs hmembers ih =>
      intro fuel gap rest hgap hfuel _
      obtain ⟨fuel, rfl⟩ := exists_succ_of_le hfuel
      simp only [List.length_cons, List.length_append, List.length_nil] at hfuel
      rw [readValue, List.cons_append, List.append_assoc, dropWhile_gap hgap (by decide)]
      simp only
      split
      · rename_i hclose
        obtain ⟨t, hhead⟩ := hmembers.members_head (['\x7d'] ++ rest)
        rw [hhead] at hclose
        exact absurd (List.cons.inj hclose).1 (by decide)
      · rw [readMembers_dropWhile]
        exact ih fuel [] rest (by omega)
  | padded hgap hvalue hgap' ih =>
      intro fuel rest hfuel hrest
      rw [List.length_append, List.length_append] at hfuel
      refine ⟨_, hgap', ?_⟩
      rw [List.append_assoc, List.append_assoc]
      exact ih fuel _ _ hgap (by omega) (hgap'.halts hrest)
  | lastItem hspells ih =>
      intro fuel acc rest hfuel
      obtain ⟨fuel, rfl⟩ : ∃ n, fuel = n + 1 := ⟨fuel - 1, by omega⟩
      rw [readItems_padded hspells ih (by omega) (by decide) (by decide)]
      simp [afterItem]
  | item hspells hmore ih ihmore =>
      intro fuel acc rest hfuel
      rw [List.length_append, List.length_cons] at hfuel
      obtain ⟨fuel, rfl⟩ : ∃ n, fuel = n + 1 := ⟨fuel - 1, by omega⟩
      rw [List.append_assoc, List.cons_append,
        readItems_padded hspells ih (by omega) (by decide) (by decide), afterItem,
        ihmore fuel _ rest (by omega)]
      simp
  | @lastMember key d gap k gap' cs hgap hkey hgap' hspells ih =>
      intro fuel acc rest hfuel
      simp only [List.length_append, List.length_cons] at hfuel
      obtain ⟨fuel, rfl⟩ : ∃ n, fuel = n + 1 := ⟨fuel - 1, by omega⟩
      simp only [List.append_assoc, List.cons_append]
      rw [readMembers_padded hgap hkey hgap' ih (by omega) (by decide) (by decide)]
      simp [afterMember]
  | @member key d ms gap k gap' cs more hgap hkey hgap' hspells hmore ih ihmore =>
      intro fuel acc rest hfuel
      simp only [List.length_append, List.length_cons] at hfuel
      obtain ⟨fuel, rfl⟩ : ∃ n, fuel = n + 1 := ⟨fuel - 1, by omega⟩
      simp only [List.append_assoc, List.cons_append]
      rw [readMembers_padded hgap hkey hgap' ih (by omega) (by decide) (by decide), afterMember,
        ihmore fuel _ rest (by omega)]
      simp

/-! ## Whole texts -/

/-- **A text is read to its end as a value exactly when it spells this value.** -/
theorem spells_iff_readValue {cs : List Char} {d : Document} :
    Spells (.padded d) cs ↔
      ∃ gap, Blank gap ∧ readValue (2 * cs.length + 2) cs = (d, some gap) := by
  constructor
  · intro h
    obtain ⟨gap, hgap, hread⟩ := h.reads (2 * cs.length + 2) [] (by omega) halts_nil
    rw [List.append_nil, List.append_nil] at hread
    exact ⟨gap, hgap, hread⟩
  · rintro ⟨after, hafter, hread⟩
    obtain ⟨gap, front, hgap, hcs, hspells⟩ := spells_of_readValue hread
    rw [hcs]
    exact .padded hgap hspells hafter

/-- A text that spells a value, with blanks around it, is read as this value. -/
theorem Spells.read {text : String} {d : Document} (h : Spells (.padded d) text.toList) :
    read text = (d, none) := by
  obtain ⟨gap, hgap, hread⟩ := spells_iff_readValue.mp h
  have hend : gap.dropWhile isBlank = [] := by
    have hdrop := hgap.dropWhile_append []
    rwa [List.append_nil] at hdrop
  simp [Document.read, hread, hend]

end Document

end ModuleGraph.Json
