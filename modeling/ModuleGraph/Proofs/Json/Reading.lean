import ModuleGraph.Json.Value
import ModuleGraph.Proofs.Json.Grammar

set_option autoImplicit false

/-! # The value of a text

A text has a value exactly when it spells a document that has one (`Value.parse_eq_ok_iff`). The
reader leaves a fault in the document whenever it stops before the end of a value (`faulty`), and a
document with a fault has no value (`grammarFault?_of_ofDocument`).
-/

namespace ModuleGraph.Json

theorem bind_eq_ok_iff {ε α β : Type} {x : Except ε α} {f : α → Except ε β} {b : β} :
    x >>= f = .ok b ↔ ∃ a, x = .ok a ∧ f a = .ok b := by
  cases x <;> simp [bind, Except.bind]

namespace Document

/-! ## Faults in documents -/

theorem itemsFault?_append (ds es : List Document) :
    itemsFault? (ds ++ es) = (itemsFault? ds).or (itemsFault? es) := by
  induction ds with
  | nil => simp [itemsFault?]
  | cons d ds ih => rw [List.cons_append, itemsFault?, itemsFault?, ih, Option.or_assoc]

theorem membersFault?_append (ms ns : List (Reading × Document)) :
    membersFault? (ms ++ ns) = (membersFault? ms).or (membersFault? ns) := by
  induction ms with
  | nil => simp [membersFault?]
  | cons m ms ih =>
      obtain ⟨key, d⟩ := m
      rw [List.cons_append, membersFault?, membersFault?, ih, Option.or_assoc]

/-- The readers stop only at faults, for one amount of fuel. -/
structure Faulty (fuel : Nat) : Prop where
  value : ∀ {cs : List Char} {d : Document}, readValue fuel cs = (d, none) →
    d.grammarFault?.isSome = true
  items : ∀ {acc : List Document} {cs : List Char} {d : Document},
    readItems fuel acc cs = (d, none) → d.grammarFault?.isSome = true
  members : ∀ {acc : List (Reading × Document)} {cs : List Char} {d : Document},
    readMembers fuel acc cs = (d, none) → d.grammarFault?.isSome = true

theorem isSome_fault_of_scalar {r : Except Fault (Document × List Char)} {d : Document}
    (h : scalar r = (d, none)) : d.grammarFault?.isSome = true := by
  unfold scalar at h
  split at h
  · cases h
  · cases h
    rfl

theorem Faulty.items_succ {fuel : Nat} (h : Faulty fuel) {acc : List Document} {cs : List Char}
    {d : Document} (hread : readItems (fuel + 1) acc cs = (d, none)) :
    d.grammarFault?.isSome = true := by
  rw [readItems] at hread
  split at hread
  · cases hread
    simp [grammarFault?]
  · cases hread
    simp [grammarFault?]
  · split at hread
    · rename_i item hitem
      cases hread
      have hfault := h.value hitem
      simp [grammarFault?, itemsFault?_append, itemsFault?, hfault]
    · split at hread
      · cases hread
      · exact h.items hread
      · cases hread
        simp [grammarFault?]
      · cases hread
        simp [grammarFault?]

theorem Faulty.members_succ {fuel : Nat} (h : Faulty fuel) {acc : List (Reading × Document)}
    {cs : List Char} {d : Document} (hread : readMembers (fuel + 1) acc cs = (d, none)) :
    d.grammarFault?.isSome = true := by
  rw [readMembers] at hread
  split at hread
  · cases hread
    simp [grammarFault?]
  · split at hread
    · cases hread
      simp [grammarFault?]
    · split at hread
      · split at hread
        · rename_i value hvalue
          cases hread
          have hfault := h.value hvalue
          simp [grammarFault?, membersFault?_append, membersFault?, hfault]
        · split at hread
          · cases hread
          · exact h.members hread
          · cases hread
            simp [grammarFault?]
          · cases hread
            simp [grammarFault?]
      · cases hread
        simp [grammarFault?, membersFault?_append, membersFault?]
      · cases hread
        simp [grammarFault?, membersFault?_append, membersFault?]
  · cases hread
    simp [grammarFault?]

theorem Faulty.value_succ {fuel : Nat} (h : Faulty fuel) {cs : List Char} {d : Document}
    (hread : readValue (fuel + 1) cs = (d, none)) : d.grammarFault?.isSome = true := by
  rw [readValue] at hread
  split at hread
  · cases hread
    rfl
  · exact isSome_fault_of_scalar hread
  · exact isSome_fault_of_scalar hread
  · exact isSome_fault_of_scalar hread
  · exact isSome_fault_of_scalar hread
  · exact isSome_fault_of_scalar hread
  · split at hread
    · cases hread
    · exact h.items hread
  · split at hread
    · cases hread
    · exact h.members hread
  · split at hread
    · exact isSome_fault_of_scalar hread
    · cases hread
      rfl

theorem faulty (fuel : Nat) : Faulty fuel := by
  induction fuel with
  | zero =>
      refine ⟨fun h => ?_, fun h => ?_, fun h => ?_⟩
      · rw [readValue] at h
        cases h
        rfl
      · rw [readItems] at h
        cases h
        simp [grammarFault?]
      · rw [readMembers] at h
        cases h
        simp [grammarFault?]
  | succ fuel ih => exact ⟨ih.value_succ, ih.items_succ, ih.members_succ⟩

/-- A text that is read without any fault spells what is read. -/
theorem spells_of_read {text : String} {d : Document} (h : read text = (d, none))
    (hfault : d.grammarFault? = none) : Spells (.padded d) text.toList := by
  unfold read at h
  cases hread : readValue (2 * text.toList.length + 2) text.toList with
  | mk value left =>
      simp only [hread] at h
      cases left with
      | none =>
          cases h
          have hstop := (faulty _).value hread
          rw [hfault] at hstop
          cases hstop
      | some rest =>
          obtain ⟨rfl, hrest⟩ := Prod.mk.inj h
          have hend : rest.dropWhile isBlank = [] := by
            by_cases hempty : (rest.dropWhile isBlank).isEmpty = true
            · exact List.isEmpty_iff.mp hempty
            · rw [if_neg hempty] at hrest
              cases hrest
          obtain ⟨gap, hgap, hsplit⟩ := exists_gap rest
          rw [hend, List.append_nil] at hsplit
          exact spells_iff_readValue.mpr ⟨gap, hgap, by rw [hread, hsplit]⟩

/-- The first fault of what a phrase stands for. -/
def Phrase.fault? : Phrase → Option Fault
  | .value d => d.grammarFault?
  | .padded d => d.grammarFault?
  | .items ds => itemsFault? ds
  | .members ms => membersFault? ms

/-- What a text spells has no fault. -/
theorem Spells.fault?_eq_none {phrase : Phrase} {cs : List Char} (h : Spells phrase cs) :
    phrase.fault? = none := by
  induction h with
  | null => rfl
  | yes => rfl
  | no => rfl
  | negative _ => rfl
  | unsigned _ => rfl
  | text _ => rfl
  | emptyArray _ => rfl
  | array _ ih => simpa [Phrase.fault?, grammarFault?] using ih
  | emptyObject _ => rfl
  | object _ ih => simpa [Phrase.fault?, grammarFault?] using ih
  | padded _ _ _ ih => exact ih
  | lastItem _ ih => simpa [Phrase.fault?, itemsFault?] using ih
  | item _ _ ih ihmore => simpa [Phrase.fault?, itemsFault?] using ⟨ih, ihmore⟩
  | lastMember _ _ _ _ ih => simpa [Phrase.fault?, membersFault?] using ih
  | member _ _ _ _ _ ih ihmore => simpa [Phrase.fault?, membersFault?] using ⟨ih, ihmore⟩

end Document

namespace Value

open Document

mutual

/-- A document with a fault has no value. -/
theorem grammarFault?_of_ofDocument {room : Nat} {v : Value} :
    (d : Document) → ofDocument room d = .ok v → d.grammarFault? = none
  | .null, _ => rfl
  | .bool _, _ => rfl
  | .number _, _ => rfl
  | .text _, _ => rfl
  | .fault _, h => by cases h
  | .array items stop, h => by
      rw [ofDocument] at h
      split at h
      · cases h
      · obtain ⟨values, hvalues, hstop⟩ := bind_eq_ok_iff.mp h
        cases stop with
        | some f => cases hstop
        | none => rw [grammarFault?, itemsFault?_of_ofItems items hvalues, Option.or_none]
  | .object members stop, h => by
      rw [ofDocument] at h
      split at h
      · cases h
      · obtain ⟨values, hvalues, hstop⟩ := bind_eq_ok_iff.mp h
        cases stop with
        | some f => cases hstop
        | none => rw [grammarFault?, membersFault?_of_ofMembers members hvalues, Option.or_none]

theorem itemsFault?_of_ofItems {room : Nat} {vs : List Value} :
    (ds : List Document) → ofItems room ds = .ok vs → itemsFault? ds = none
  | [], _ => rfl
  | d :: ds, h => by
      rw [ofItems] at h
      obtain ⟨v, hv, hrest⟩ := bind_eq_ok_iff.mp h
      obtain ⟨more, hmore, -⟩ := bind_eq_ok_iff.mp hrest
      rw [itemsFault?, grammarFault?_of_ofDocument d hv, itemsFault?_of_ofItems ds hmore]
      rfl

theorem membersFault?_of_ofMembers {room : Nat} {acc vs : List (String × Value)} :
    (ms : List (Reading × Document)) → ofMembers room acc ms = .ok vs → membersFault? ms = none
  | [], _ => rfl
  | (key, d) :: ms, h => by
      rw [ofMembers] at h
      obtain ⟨k, -, hrest⟩ := bind_eq_ok_iff.mp h
      obtain ⟨v, hv, hmore⟩ := bind_eq_ok_iff.mp hrest
      rw [membersFault?, grammarFault?_of_ofDocument d hv, membersFault?_of_ofMembers ms hmore]
      rfl

end

/-- **A text has a value exactly when it spells a document with this value.** -/
theorem parse_eq_ok_iff {text : String} {v : Value} :
    parse text = .ok v ↔
      ∃ d, Spells (.padded d) text.toList ∧ ofDocument nestingLimit d = .ok v := by
  constructor
  · intro h
    cases hread : Document.read text with
    | mk d after =>
        rw [parse, hread] at h
        obtain ⟨value, hvalue, hafter⟩ := bind_eq_ok_iff.mp h
        cases after with
        | some f => cases hafter
        | none =>
            cases hafter
            exact ⟨d, spells_of_read hread (grammarFault?_of_ofDocument d hvalue), hvalue⟩
  · rintro ⟨d, hspells, hvalue⟩
    rw [parse, hspells.read]
    exact bind_eq_ok_iff.mpr ⟨v, hvalue, rfl⟩

end Value

end ModuleGraph.Json
