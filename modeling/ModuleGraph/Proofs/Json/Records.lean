import Mathlib.Data.List.Nodup
import ModuleGraph.Json.Decode
import ModuleGraph.Proofs.Json.Reading

set_option autoImplicit false

/-! # Records are decoded member by member

A `Layout` gives the fields of a record as slots that are stored and looked up independently of
each other. What an object decodes to is then known for every slot by itself (`Slot.ReadFrom`): the
slot holds the value of its member, or what the record starts with if the object has no such
member (`Layout.decodeRecord_eq_ok_iff`). Neither the order of the members nor the unknown ones
among them enter, so an object that is reworded (`Reworded`) decodes to the same record
(`Layout.Reads.reworded`).
-/

namespace ModuleGraph.Json

open Document

abbrev Members := List (Reading × Document)

/-- No member has this key. -/
def Lacks (ms : Members) (key : String) : Prop := ∀ d, (.ok key, d) ∉ ms

theorem lacks_cons_iff {ms : Members} {k key : String} {d : Document} :
    Lacks ((.ok k, d) :: ms) key ↔ key ≠ k ∧ Lacks ms key := by
  constructor
  · intro h
    refine ⟨?_, fun e he => h e (List.mem_cons_of_mem _ he)⟩
    rintro rfl
    exact h d List.mem_cons_self
  · rintro ⟨hne, h⟩ e he
    rcases List.mem_cons.mp he with heq | he
    · cases heq
      exact hne rfl
    · exact h e he

theorem lacks_iff_notMem_keys {ms : Members} {key : String} :
    Lacks ms key ↔ .ok key ∉ ms.map Prod.fst := by
  simp [Lacks]

/-! ## Slots -/

/-- A field of a record, with the way to look it up. -/
structure Slot (ρ : Type) where
  {α : Type}
  name : String
  decode : Decoder α
  store : α → ρ → ρ
  get : ρ → α

namespace Slot

variable {ρ : Type} {s : Slot ρ} {start start' r : ρ} {ms : Members}

def field (s : Slot ρ) : RecordField ρ := RecordField.of s.name s.decode s.store

/-- The slot of `r` is what the members give for it, or what `start` holds if they give
nothing. -/
structure ReadFrom (s : Slot ρ) (start : ρ) (ms : Members) (r : ρ) : Prop where
  given : ∀ d, (.ok s.name, d) ∈ ms → s.decode d = .ok (s.get r)
  lacking : Lacks ms s.name → s.get r = s.get start

theorem readFrom_of_lacks (h : Lacks ms s.name) :
    s.ReadFrom start ms r ↔ s.get r = s.get start :=
  ⟨fun hread => hread.lacking h, fun hget => ⟨fun d hd => absurd hd (h d), fun _ => hget⟩⟩

theorem readFrom_cons_self {d : Document} (h : Lacks ms s.name) :
    s.ReadFrom start ((.ok s.name, d) :: ms) r ↔ s.decode d = .ok (s.get r) := by
  constructor
  · intro hread
    exact hread.given d List.mem_cons_self
  · intro hd
    refine ⟨fun e he => ?_, fun hlacks => absurd rfl (lacks_cons_iff.mp hlacks).1⟩
    rcases List.mem_cons.mp he with heq | he
    · cases heq
      exact hd
    · exact absurd he (h e)

theorem readFrom_cons_of_ne {k : String} {d : Document} (hne : s.name ≠ k)
    (hget : s.get start' = s.get start) :
    s.ReadFrom start ((.ok k, d) :: ms) r ↔ s.ReadFrom start' ms r := by
  have hmem : ∀ e, (.ok s.name, e) ∈ (.ok k, d) :: ms ↔ (.ok s.name, e) ∈ ms := by
    intro e
    simp [hne]
  constructor
  · intro h
    refine ⟨fun e he => h.given e ((hmem e).mpr he), fun hlacks => ?_⟩
    rw [hget]
    exact h.lacking (lacks_cons_iff.mpr ⟨hne, hlacks⟩)
  · intro h
    refine ⟨fun e he => h.given e ((hmem e).mp he), fun hlacks => ?_⟩
    rw [← hget]
    exact h.lacking (lacks_cons_iff.mp hlacks).2

theorem ReadFrom.congr {ms ns : Members} (h : s.ReadFrom start ms r)
    (hmem : ∀ m, m ∈ ns ↔ m ∈ ms) : s.ReadFrom start ns r :=
  ⟨fun d hd => h.given d ((hmem _).mp hd),
    fun hlacks => h.lacking fun d hd => hlacks d ((hmem _).mpr hd)⟩

end Slot

/-- The slots of a record, which together make up the record. -/
structure Layout (ρ : Type) where
  slots : List (Slot ρ)
  distinct : (slots.map Slot.name).Nodup
  get_store : ∀ s ∈ slots, ∀ a r, s.get (s.store a r) = a
  get_store_of_ne : ∀ s ∈ slots, ∀ t ∈ slots, t.name ≠ s.name →
    ∀ a r, t.get (s.store a r) = t.get r
  ext : ∀ r r', (∀ s ∈ slots, s.get r = s.get r') → r = r'

namespace Layout

variable {ρ : Type} {L : Layout ρ} {s : Slot ρ} {start r : ρ} {seen : List String} {ms : Members}

def names (L : Layout ρ) : List String := L.slots.map Slot.name

def fields (L : Layout ρ) : List (RecordField ρ) := L.slots.map Slot.field

theorem name_mem_names (hs : s ∈ L.slots) : s.name ∈ L.names := List.mem_map_of_mem hs

theorem find?_fields_of_mem (hs : s ∈ L.slots) :
    L.fields.find? (·.name == s.name) = some s.field := by
  have hname : (s.name == s.name) = true := beq_self_eq_true s.name
  rw [fields, List.find?_map]
  obtain ⟨t, ht⟩ := Option.isSome_iff_exists.mp
    (List.find?_isSome.mpr ⟨s, hs, hname⟩ : (L.slots.find? (·.name == s.name)).isSome = true)
  have hsame : t.name = s.name := by simpa using List.find?_some ht
  have heq : t = s := List.inj_on_of_nodup_map L.distinct (List.mem_of_find?_eq_some ht) hs hsame
  rw [heq] at ht
  exact congrArg (Option.map Slot.field) ht

theorem find?_fields_of_notMem {k : String} (hk : k ∉ L.names) :
    L.fields.find? (·.name == k) = none := by
  rw [List.find?_eq_none]
  intro f hf hname
  obtain ⟨s, hs, rfl⟩ := List.mem_map.mp hf
  exact hk (beq_iff_eq.mp hname ▸ name_mem_names hs)

/-! ## One member -/

theorem decodeFields_unknown_iff {k : String} {d : Document} {out : List String × ρ}
    (hk : k ∉ L.names) :
    decodeFields L.fields seen start ((.ok k, d) :: ms) = .ok out ↔
      d.grammarFault? = none ∧ decodeFields L.fields seen start ms = .ok out := by
  have hkey : liftFault (Except.ok k) = .ok k := rfl
  rw [decodeFields, hkey]
  simp only [bind, Except.bind, find?_fields_of_notMem hk]
  cases d.grammarFault? <;> simp [raise?]

theorem decodeFields_known_iff {d : Document} {out : List String × ρ} (hs : s ∈ L.slots) :
    decodeFields L.fields seen start ((.ok s.name, d) :: ms) = .ok out ↔
      s.name ∉ seen ∧ ∃ a, s.decode d = .ok a ∧
        decodeFields L.fields (s.name :: seen) (s.store a start) ms = .ok out := by
  have hkey : liftFault (Except.ok s.name) = .ok s.name := rfl
  rw [decodeFields, hkey]
  simp only [bind, Except.bind, find?_fields_of_mem hs]
  by_cases hseen : s.name ∈ seen
  · simp [hseen, throw, throwThe, MonadExceptOf.throw]
  · cases hd : s.decode d <;> simp [hseen, hd, Slot.field, RecordField.of, Except.map]

/-- What an object needs besides values that decode: whole keys, known ones at most once and not
among those seen before, and no fault in what is skipped. -/
structure Admits (L : Layout ρ) (seen : List String) (ms : Members) : Prop where
  members : ∀ m ∈ ms, ∃ k, m.1 = .ok k ∧ (k ∉ L.names → m.2.grammarFault? = none)
  fresh : ∀ k ∈ L.names, k ∈ seen → Lacks ms k
  once : (ms.map Prod.fst).Pairwise fun a b => a = b → ∀ k ∈ L.names, a ≠ .ok k

theorem admits_nil : L.Admits seen [] :=
  ⟨by simp, by simp [Lacks], .nil⟩

theorem admits_cons_unknown_iff {k : String} {d : Document} (hk : k ∉ L.names) :
    L.Admits seen ((.ok k, d) :: ms) ↔ d.grammarFault? = none ∧ L.Admits seen ms := by
  constructor
  · rintro ⟨hmembers, hfresh, honce⟩
    rw [List.forall_mem_cons] at hmembers
    obtain ⟨⟨k', hk', hfault⟩, hmembers⟩ := hmembers
    cases hk'
    exact ⟨hfault hk, hmembers,
      fun n hn hseen => (lacks_cons_iff.mp (hfresh n hn hseen)).2, honce.of_cons⟩
  · rintro ⟨hfault, hmembers, hfresh, honce⟩
    refine ⟨List.forall_mem_cons.mpr ⟨⟨k, rfl, fun _ => hfault⟩, hmembers⟩, ?_, ?_⟩
    · intro n hn hseen
      exact lacks_cons_iff.mpr ⟨fun hnk => hk (hnk ▸ hn), hfresh n hn hseen⟩
    · refine List.pairwise_cons.mpr ⟨fun b _ _ n hn hkn => ?_, honce⟩
      cases hkn
      exact hk hn

theorem admits_cons_known_iff {k : String} {d : Document} (hk : k ∈ L.names) :
    L.Admits seen ((.ok k, d) :: ms) ↔ k ∉ seen ∧ L.Admits (k :: seen) ms := by
  constructor
  · rintro ⟨hmembers, hfresh, honce⟩
    rw [List.forall_mem_cons] at hmembers
    rw [List.map_cons, List.pairwise_cons] at honce
    have hlacks : Lacks ms k := by
      rw [lacks_iff_notMem_keys]
      intro hkey
      exact honce.1 _ hkey rfl k hk rfl
    refine ⟨fun hseen => (lacks_cons_iff.mp (hfresh k hk hseen)).1 rfl, hmembers.2, ?_, honce.2⟩
    intro n hn hseen
    rcases List.mem_cons.mp hseen with rfl | hseen
    · exact hlacks
    · exact (lacks_cons_iff.mp (hfresh n hn hseen)).2
  · rintro ⟨hseen, hmembers, hfresh, honce⟩
    have hlacks : Lacks ms k := hfresh k hk List.mem_cons_self
    refine ⟨List.forall_mem_cons.mpr ⟨⟨k, rfl, absurd hk⟩, hmembers⟩, ?_, ?_⟩
    · intro n hn hn'
      refine lacks_cons_iff.mpr ⟨?_, hfresh n hn (List.mem_cons_of_mem _ hn')⟩
      rintro rfl
      exact hseen hn'
    · refine List.pairwise_cons.mpr ⟨?_, honce⟩
      rintro b hb rfl
      exact absurd hb (lacks_iff_notMem_keys.mp hlacks)

/-! ## All members -/

/-- What is read from members, slot by slot. -/
def Reads (L : Layout ρ) (seen : List String) (start : ρ) (ms : Members) (r : ρ) : Prop :=
  L.Admits seen ms ∧ ∀ s ∈ L.slots, s.ReadFrom start ms r

theorem reads_nil_iff : L.Reads seen start [] r ↔ r = start := by
  have hlacks : ∀ key, Lacks [] key := by simp [Lacks]
  constructor
  · rintro ⟨-, hread⟩
    exact L.ext r start fun s hs => (hread s hs).lacking (hlacks s.name)
  · rintro rfl
    exact ⟨admits_nil, fun s _ => (Slot.readFrom_of_lacks (hlacks s.name)).mpr rfl⟩

theorem reads_cons_unknown_iff {k : String} {d : Document} (hk : k ∉ L.names) :
    L.Reads seen start ((.ok k, d) :: ms) r ↔
      d.grammarFault? = none ∧ L.Reads seen start ms r := by
  have hslot : ∀ s ∈ L.slots,
      (s.ReadFrom start ((.ok k, d) :: ms) r ↔ s.ReadFrom start ms r) := by
    intro s hs
    refine Slot.readFrom_cons_of_ne ?_ rfl
    rintro rfl
    exact hk (name_mem_names hs)
  rw [Reads, Reads, admits_cons_unknown_iff hk, and_assoc]
  exact and_congr_right fun _ => and_congr_right fun _ => forall₂_congr hslot

theorem reads_cons_known_iff {d : Document} (hs : s ∈ L.slots) :
    L.Reads seen start ((.ok s.name, d) :: ms) r ↔
      s.name ∉ seen ∧ ∃ a, s.decode d = .ok a ∧
        L.Reads (s.name :: seen) (s.store a start) ms r := by
  have hname := name_mem_names hs
  -- The other slots do not see the member, neither among the members nor in what it stores.
  have hother : ∀ t ∈ L.slots, t ≠ s → ∀ a,
      (t.ReadFrom start ((.ok s.name, d) :: ms) r ↔ t.ReadFrom (s.store a start) ms r) := by
    intro t ht hts a
    have hne : t.name ≠ s.name := fun heq => hts (List.inj_on_of_nodup_map L.distinct ht hs heq)
    exact Slot.readFrom_cons_of_ne hne (L.get_store_of_ne s hs t ht hne a start)
  constructor
  · rintro ⟨hadmits, hread⟩
    obtain ⟨hseen, hadmits⟩ := (admits_cons_known_iff hname).mp hadmits
    have hlacks : Lacks ms s.name := hadmits.fresh _ hname List.mem_cons_self
    refine ⟨hseen, s.get r, (hread s hs).given d List.mem_cons_self, hadmits, fun t ht => ?_⟩
    by_cases hts : t = s
    · rw [hts, Slot.readFrom_of_lacks hlacks, L.get_store s hs]
    · exact (hother t ht hts _).mp (hread t ht)
  · rintro ⟨hseen, a, ha, hadmits, hread⟩
    have hlacks : Lacks ms s.name := hadmits.fresh _ hname List.mem_cons_self
    refine ⟨(admits_cons_known_iff hname).mpr ⟨hseen, hadmits⟩, fun t ht => ?_⟩
    by_cases hts : t = s
    · have hget := (Slot.readFrom_of_lacks hlacks).mp (hread s hs)
      rw [L.get_store s hs] at hget
      rw [hts, Slot.readFrom_cons_self hlacks, hget]
      exact ha
    · exact (hother t ht hts a).mpr (hread t ht)

theorem exists_decodeFields_iff :
    (∃ seen', decodeFields L.fields seen start ms = .ok (seen', r)) ↔ L.Reads seen start ms r := by
  -- Both sides take up one member at a time, with the names seen and the record stored so far.
  induction ms generalizing seen start with
  | nil =>
      rw [reads_nil_iff]
      simp [decodeFields, eq_comm]
  | cons m ms ih =>
      obtain ⟨key, d⟩ := m
      cases key with
      | error f =>
          constructor
          · rintro ⟨seen', h⟩
            cases h
          · rintro ⟨hadmits, -⟩
            obtain ⟨k, hk, -⟩ := hadmits.members _ List.mem_cons_self
            cases hk
      | ok k =>
          by_cases hk : k ∈ L.names
          · obtain ⟨s, hs, rfl⟩ := List.mem_map.mp hk
            simp only [decodeFields_known_iff hs, reads_cons_known_iff hs, ← ih]
            constructor
            · rintro ⟨seen', hseen, a, ha, h⟩
              exact ⟨hseen, a, ha, seen', h⟩
            · rintro ⟨hseen, a, ha, seen', h⟩
              exact ⟨seen', hseen, a, ha, h⟩
          · simp only [decodeFields_unknown_iff hk, reads_cons_unknown_iff hk, ← ih,
              exists_and_left]

/-- **An object decodes to the record that each of its slots is read into.** -/
theorem decodeRecord_eq_ok_iff {name : String} :
    decodeRecord name L.fields .allowed start (.object ms none) = .ok r ↔
      L.Reads [] start ms r := by
  rw [← exists_decodeFields_iff, decodeRecord]
  simp only [bind_eq_ok_iff]
  constructor
  · rintro ⟨⟨seen, r'⟩, h, -, -, heq⟩
    cases heq
    exact ⟨seen, h⟩
  · rintro ⟨seen, h⟩
    exact ⟨(seen, r), h, (), rfl, rfl⟩

end Layout

/-! ## Rewording -/

/-- Some text spells the document. -/
def IsSpelled (d : Document) : Prop := ∃ cs, Spells (.value d) cs

/-- The members of an object are put in another order, get unknown ones between them, or have a
value changed for one that is alike. -/
inductive Reworded {ρ : Type} (L : Layout ρ) (Alike : String → Document → Document → Prop) :
    Members → Members → Prop where
  | perm {ms ns : Members} : ms.Perm ns → Reworded L Alike ms ns
  | insert {k : String} {d : Document} {ms ns : Members} : k ∉ L.names → IsSpelled d →
      Reworded L Alike (ms ++ ns) (ms ++ (.ok k, d) :: ns)
  | change {k : String} {d e : Document} {ms ns : Members} : Alike k d e →
      Reworded L Alike (ms ++ (.ok k, d) :: ns) (ms ++ (.ok k, e) :: ns)
  | trans {ms ns os : Members} : Reworded L Alike ms ns → Reworded L Alike ns os →
      Reworded L Alike ms os

namespace Layout

variable {ρ : Type} {L : Layout ρ} {start r : ρ} {seen : List String} {ms ns : Members}

theorem Reads.perm (h : L.Reads seen start ms r) (hperm : ms.Perm ns) :
    L.Reads seen start ns r := by
  obtain ⟨⟨hmembers, hfresh, honce⟩, hread⟩ := h
  refine ⟨⟨fun m hm => hmembers m (hperm.mem_iff.mpr hm), fun k hk hseen d hd => ?_, ?_⟩,
    fun s hs => (hread s hs).congr fun m => hperm.mem_iff.symm⟩
  · exact hfresh k hk hseen d (hperm.mem_iff.mpr hd)
  -- That no known key is repeated is a symmetric relation between keys, so order plays no role.
  · refine ((hperm.map Prod.fst).pairwise_iff ?_).mp honce
    intro a b hab hba k hk hb
    exact hab hba.symm k hk (hba ▸ hb)

/-- Values that decode alike may stand for each other. -/
theorem Reads.change {s : Slot ρ} {d e : Document} (hs : s ∈ L.slots)
    (hde : ∀ a, s.decode d = .ok a → s.decode e = .ok a)
    (h : L.Reads seen start ((.ok s.name, d) :: ms) r) :
    L.Reads seen start ((.ok s.name, e) :: ms) r := by
  obtain ⟨hseen, a, ha, hrest⟩ := (reads_cons_known_iff hs).mp h
  exact (reads_cons_known_iff hs).mpr ⟨hseen, a, hde a ha, hrest⟩

/-- **A reworded object decodes to the same record**, provided that alike values of a slot do. -/
theorem Reads.reworded {Alike : String → Document → Document → Prop}
    (halike : ∀ k d e, Alike k d e →
      ∃ s ∈ L.slots, s.name = k ∧ ∀ a, s.decode d = .ok a → s.decode e = .ok a)
    (hreworded : Reworded L Alike ms ns) (h : L.Reads seen start ms r) :
    L.Reads seen start ns r := by
  induction hreworded with
  | perm hperm => exact h.perm hperm
  | insert hk hd =>
      obtain ⟨cs, hcs⟩ := hd
      have hcons := (reads_cons_unknown_iff hk).mpr ⟨hcs.fault?_eq_none, h⟩
      exact hcons.perm List.perm_middle.symm
  | change hde =>
      obtain ⟨s, hs, rfl, hdecode⟩ := halike _ _ _ hde
      exact (Reads.change hs hdecode (h.perm List.perm_middle)).perm List.perm_middle.symm
  | trans _ _ ih ih' => exact ih' (ih h)

end Layout

/-- A text is decoded as the document that it spells. -/
theorem decodeWhole_of_spells {α : Type} {decode : Decoder α} {text : String} {d : Document}
    (h : Spells (.padded d) text.toList) : decodeWhole decode text = decode d := by
  rw [decodeWhole, h.read]
  show (decode d >>= fun a => raise? none >>= fun _ => pure a) = _
  cases decode d <;> rfl

/-- A field whose value is mapped before it is stored. -/
theorem RecordField.of_map {ρ α β : Type} (name : String) (decode : Decoder α) (f : α → β)
    (store : β → ρ → ρ) :
    RecordField.of name (fun d => (decode d).map f) store =
      RecordField.of name decode fun a => store (f a) := by
  unfold RecordField.of
  congr
  funext d r
  cases hd : decode d <;> simp [hd, Except.map]

end ModuleGraph.Json
