import ModuleGraph.Json.Value
import ModuleGraph.Proofs.Json.Grammar

set_option autoImplicit false

/-! # Written values spell themselves

A string is written so that reading undoes every escape (`spellsText_escape`). From it, both
written forms of a value, on one line and indented, spell the value (`Faithful`): they differ in
the blanks between the tokens only, so arrays and objects are treated once for every choice of
blanks (`spells_items`, `spells_members`).
-/

namespace ModuleGraph.Json

namespace Value

open Document

/-! ## Strings -/

/-- A control character is written with the digits of its number. -/
theorem hexValue_hexChar {n : Nat} (h : n < 32) :
    hexValue? ['0', '0', hexChar (n / 16), hexChar (n % 16)] = some n := by
  have hall : ∀ m < 32, hexValue? ['0', '0', hexChar (m / 16), hexChar (m % 16)] = some m := by
    decide
  exact hall n h

/-- A character is written with a short escape, with its number, or as it is. -/
theorem escapeChar_cases (c : Char) :
    (∃ e, escapeChar c = ['\\', e] ∧ simpleEscape? e = some c) ∨
    (c < ' ' ∧
      escapeChar c = ['\\', 'u', '0', '0', hexChar (c.toNat / 16), hexChar (c.toNat % 16)]) ∨
    (escapeChar c = [c] ∧ c ≠ '"' ∧ c ≠ '\\' ∧ ¬c < ' ') := by
  unfold escapeChar
  by_cases hquote : c = '"'
  · exact Or.inl ⟨'"', by rw [if_pos hquote], by rw [hquote]; rfl⟩
  by_cases hslash : c = '\\'
  · exact Or.inl ⟨'\\', by rw [if_neg hquote, if_pos hslash], by rw [hslash]; rfl⟩
  rw [if_neg hquote, if_neg hslash]
  split
  · exact Or.inl ⟨'b', rfl, by simp_all [simpleEscape?]⟩
  split
  · exact Or.inl ⟨'f', rfl, by simp_all [simpleEscape?]⟩
  split
  · exact Or.inl ⟨'n', rfl, by simp_all [simpleEscape?]⟩
  split
  · exact Or.inl ⟨'r', rfl, by simp_all [simpleEscape?]⟩
  split
  · exact Or.inl ⟨'t', rfl, by simp_all [simpleEscape?]⟩
  split
  · rename_i hcontrol
    exact Or.inr (Or.inl ⟨hcontrol, rfl⟩)
  · rename_i hcontrol
    exact Or.inr (Or.inr ⟨rfl, hquote, hslash, hcontrol⟩)

/-- Reading undoes the escape of a character. -/
theorem readString_escapeChar (c : Char) (acc rest : List Char) :
    readString acc true (escapeChar c ++ rest) = readString (c :: acc) true rest := by
  rcases escapeChar_cases c with ⟨e, hc, he⟩ | ⟨hcontrol, hc⟩ | ⟨hc, hquote, hslash, hcontrol⟩
  · rw [hc]
    exact readString_escape he acc true rest
  · have hsmall : c.toNat < 32 := hcontrol
    have hhigh : isHighHalf c.toNat = false := by
      simp only [isHighHalf, Bool.and_eq_false_iff, decide_eq_false_iff_not]
      omega
    have hlow : isLowHalf c.toNat = false := by
      simp only [isLowHalf, Bool.and_eq_false_iff, decide_eq_false_iff_not]
      omega
    rw [hc]
    simp only [List.cons_append, List.nil_append, readString, hexValue_hexChar hsmall, hhigh, hlow]
    simp
  · rw [hc]
    exact readString_plain hquote hslash hcontrol acc true rest

theorem readString_flatMap_escapeChar (cs acc rest : List Char) :
    readString acc true (cs.flatMap escapeChar ++ '"' :: rest)
      = .ok (.ok (String.ofList (acc.reverse ++ cs)), rest) := by
  induction cs generalizing acc with
  | nil => simp [readString]
  | cons c cs ih =>
      rw [List.flatMap_cons, List.append_assoc, readString_escapeChar, ih]
      simp

/-- **A string is read back as it was written.** -/
theorem spellsText_escape (s : String) :
    SpellsText (.ok s) (s.toList.flatMap escapeChar ++ ['"']) := by
  have hread := readString_flatMap_escapeChar s.toList [] []
  obtain ⟨front, hfront, hspells⟩ := spellsText_of_readString hread
  rw [List.append_nil] at hfront
  rw [hfront]
  simpa using hspells

theorem spells_quote (s : String) : Spells (.value (.text (.ok s))) (quote s) :=
  .text (spellsText_escape s)

/-! ## Arrays and objects -/

section

variable {gap space last : List Char} {write : Value → List Char}

/-- Items that are written one after the other, each with a gap before it. -/
theorem spells_items (hgap : Blank gap) (hlast : Blank last) (more : List Value → List Char)
    (hnil : more [] = [])
    (hcons : ∀ v rest, more (v :: rest) = ',' :: (gap ++ (write v ++ more rest))) (v : Value)
    (rest : List Value)
    (h : ∀ w ∈ v :: rest, Spells (.value w.toDocument) (write w)) :
    Spells (.items (itemsToDocuments (v :: rest))) (gap ++ (write v ++ (more rest ++ last))) := by
  induction rest generalizing v with
  | nil =>
      rw [hnil, List.nil_append]
      exact .lastItem (.padded hgap (h v List.mem_cons_self) hlast)
  | cons w rest ih =>
      have hv : Spells (.padded v.toDocument) (gap ++ (write v ++ [])) :=
        .padded hgap (h v List.mem_cons_self) blank_nil
      have hrest := ih w fun u hu => h u (List.mem_cons_of_mem _ hu)
      have hitem := Spells.item hv hrest
      rw [hcons]
      simpa [itemsToDocuments] using hitem

/-- Members that are written one after the other, each with a gap before it and with a space
after its colon. -/
theorem spells_members (hgap : Blank gap) (hspace : Blank space) (hlast : Blank last)
    (more : List (String × Value) → List Char) (hnil : more [] = [])
    (hcons : ∀ k v rest, more ((k, v) :: rest) =
      ',' :: (gap ++ (quote k ++ ':' :: (space ++ (write v ++ more rest)))))
    (k : String) (v : Value) (rest : List (String × Value))
    (h : ∀ m ∈ (k, v) :: rest, Spells (.value m.2.toDocument) (write m.2)) :
    Spells (.members (membersToDocuments ((k, v) :: rest)))
      (gap ++ (quote k ++ ':' :: (space ++ (write v ++ (more rest ++ last))))) := by
  induction rest generalizing k v with
  | nil =>
      rw [hnil, List.nil_append]
      have hv : Spells (.padded v.toDocument) (space ++ (write v ++ last)) :=
        .padded hspace (h (k, v) List.mem_cons_self) hlast
      have hmember := Spells.lastMember hgap (spellsText_escape k) blank_nil hv
      simpa [quote, membersToDocuments] using hmember
  | cons m rest ih =>
      obtain ⟨l, w⟩ := m
      have hv : Spells (.padded v.toDocument) (space ++ (write v ++ [])) :=
        .padded hspace (h (k, v) List.mem_cons_self) blank_nil
      have hrest := ih l w fun u hu => h u (List.mem_cons_of_mem _ hu)
      have hmember := Spells.member hgap (spellsText_escape k) blank_nil hv hrest
      rw [hcons]
      simpa [quote, membersToDocuments] using hmember

end

/-! ## Both forms -/

/-- A value both of whose written forms spell it. -/
structure Faithful (v : Value) : Prop where
  compact : Spells (.value v.toDocument) v.compactChars
  pretty : ∀ level, Spells (.value v.toDocument) (v.prettyChars level)

theorem blank_newLine (level : Nat) : Blank (newLine level) := by
  intro c hc
  rcases List.mem_cons.mp hc with rfl | hc
  · decide
  · rw [List.eq_of_mem_replicate hc]
    decide

theorem faithful_text (s : String) : Faithful (.text s) := by
  refine ⟨?_, fun level => ?_⟩
  · rw [compactChars]
    exact spells_quote s
  · rw [prettyChars]
    exact spells_quote s

theorem faithful_array {items : List Value} (h : ∀ v ∈ items, v.Faithful) :
    Faithful (.array items) := by
  cases items with
  | nil =>
      refine ⟨?_, fun level => ?_⟩
      · rw [compactChars]
        exact .emptyArray blank_nil
      · rw [prettyChars]
        exact .emptyArray blank_nil
  | cons v rest =>
      refine ⟨?_, fun level => ?_⟩
      · have hitems := spells_items blank_nil blank_nil compactItems (by simp [compactItems])
          (by simp [compactItems]) v rest fun w hw => (h w hw).compact
        rw [compactChars]
        simpa [toDocument] using Spells.array hitems
      · have hitems := spells_items (blank_newLine (level + 1)) (blank_newLine level)
          (prettyItems (level + 1)) (by simp [prettyItems]) (by simp [prettyItems]) v rest
          fun w hw => (h w hw).pretty (level + 1)
        rw [prettyChars]
        simpa [toDocument] using Spells.array hitems

theorem faithful_object {members : List (String × Value)} (h : ∀ m ∈ members, m.2.Faithful) :
    Faithful (.object members) := by
  cases members with
  | nil =>
      refine ⟨?_, fun level => ?_⟩
      · rw [compactChars]
        exact .emptyObject blank_nil
      · rw [prettyChars]
        exact .emptyObject blank_nil
  | cons m rest =>
      obtain ⟨k, v⟩ := m
      have hspace : Blank [' '] := by simp [Blank, isBlank]
      refine ⟨?_, fun level => ?_⟩
      · have hmembers := spells_members blank_nil blank_nil blank_nil compactMembers
          (by simp [compactMembers]) (by simp [compactMembers]) k v rest
          fun m hm => (h m hm).compact
        rw [compactChars]
        simpa [toDocument] using Spells.object hmembers
      · have hmembers := spells_members (blank_newLine (level + 1)) hspace (blank_newLine level)
          (prettyMembers (level + 1)) (by simp [prettyMembers]) (by simp [prettyMembers]) k v rest
          fun m hm => (h m hm).pretty (level + 1)
        rw [prettyChars]
        simpa [toDocument] using Spells.object hmembers

theorem faithful_texts (items : List String) : Faithful (Value.texts items) := by
  refine faithful_array fun v hv => ?_
  obtain ⟨s, -, rfl⟩ := List.mem_map.mp hv
  exact faithful_text s

namespace Faithful

/-- A value on one line, with blanks after it, spells the value. -/
theorem spells_compact {v : Value} (h : v.Faithful) {gap : List Char} (hgap : Blank gap) :
    Spells (.padded v.toDocument) (v.compact ++ String.ofList gap).toList := by
  have hpadded := Spells.padded blank_nil h.compact hgap
  simpa [Value.compact] using hpadded

/-- A value over several lines, with blanks after it, spells the value. -/
theorem spells_pretty {v : Value} (h : v.Faithful) {gap : List Char} (hgap : Blank gap) :
    Spells (.padded v.toDocument) (v.pretty ++ String.ofList gap).toList := by
  have hpadded := Spells.padded blank_nil (h.pretty 0) hgap
  simpa [Value.pretty] using hpadded

theorem read_compact {v : Value} (h : v.Faithful) {gap : List Char} (hgap : Blank gap) :
    Document.read (v.compact ++ String.ofList gap) = (v.toDocument, none) :=
  (h.spells_compact hgap).read

theorem read_pretty {v : Value} (h : v.Faithful) {gap : List Char} (hgap : Blank gap) :
    Document.read (v.pretty ++ String.ofList gap) = (v.toDocument, none) :=
  (h.spells_pretty hgap).read

end Faithful

end Value

end ModuleGraph.Json
