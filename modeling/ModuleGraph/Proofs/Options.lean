import ModuleGraph.Options
import ModuleGraph.Proofs.Graph
import ModuleGraph.Proofs.Json.Records
import ModuleGraph.Proofs.Json.Spacing

set_option autoImplicit false

/-! # The same options in other words

The three records of options are laid out in slots (`GraphOptions.layout` and the layouts of its
parts), so that each option is decoded from its own member alone. Two texts give the same options if
they differ in the order of members, in members that no option is named after, in blanks, or in
whether a single file or pattern stands in a list (`GraphOptions.ofJson_memberwise`); an option
without a member keeps its default.
-/

namespace ModuleGraph

open Json Document

/-! ## Layouts -/

namespace ParserOptions

def slots : List (Slot ParserOptions) :=
  [⟨"sourceType", SourceKind.decode, fun a r => { r with sourceKind := a }, (·.sourceKind)⟩,
   ⟨"jsx", decodeBool, fun a r => { r with jsx := a }, (·.jsx)⟩]

def layout : Layout ParserOptions where
  slots := slots
  distinct := by decide
  get_store := by simp [slots]
  get_store_of_ne := by simp [slots]
  ext := by
    rintro ⟨⟩ ⟨⟩ h
    simpa [slots] using h

theorem fields_layout : layout.fields = fields := rfl

theorem decode_eq_ok_iff {ms : Members} {options : ParserOptions} :
    ParserOptions.decode (.object ms none) = .ok options ↔ layout.Reads [] {} ms options := by
  rw [ParserOptions.decode, ← fields_layout]
  exact Layout.decodeRecord_eq_ok_iff

end ParserOptions

namespace ResolveOptions

def slots : List (Slot ResolveOptions) :=
  [⟨"extensions", decodeTexts, fun a r => { r with extensions := a }, (·.extensions)⟩,
   ⟨"modules", decodeTexts, fun a r => { r with modules := a }, (·.modules)⟩,
   ⟨"mainFields", decodeTexts, fun a r => { r with mainFields := a }, (·.mainFields)⟩,
   ⟨"conditionNames", decodeTexts, fun a r => { r with conditionNames := a }, (·.conditionNames)⟩,
   ⟨"alias", fun d => (decodeMap decodeTexts d).map (setKeys · []),
    fun a r => { r with aliases := a }, (·.aliases)⟩]

def layout : Layout ResolveOptions where
  slots := slots
  distinct := by decide
  get_store := by simp [slots]
  get_store_of_ne := by simp [slots]
  ext := by
    rintro ⟨⟩ ⟨⟩ h
    simpa [slots] using h

theorem fields_layout : layout.fields = fields := by
  simp only [Layout.fields, layout, slots, List.map_cons, List.map_nil, Slot.field,
    RecordField.of_map]
  rfl

theorem decode_eq_ok_iff {ms : Members} {options : ResolveOptions} :
    ResolveOptions.decode (.object ms none) = .ok options ↔ layout.Reads [] {} ms options := by
  rw [ResolveOptions.decode, ← fields_layout]
  exact Layout.decodeRecord_eq_ok_iff

end ResolveOptions

namespace GraphOptions

def filesSlot : Slot GraphOptions :=
  ⟨"files", fun d => (decodeOneOrMany d).map (·.map Path.mk), fun a r => { r with files := a },
    (·.files)⟩

def excludeSlot : Slot GraphOptions :=
  ⟨"exclude", decodeOneOrMany, fun a r => { r with exclude := a }, (·.exclude)⟩

def parserSlot : Slot GraphOptions :=
  ⟨"parserOptions", ParserOptions.decode, fun a r => { r with parserOptions := a },
    (·.parserOptions)⟩

def resolveSlot : Slot GraphOptions :=
  ⟨"resolveOptions", ResolveOptions.decode, fun a r => { r with resolveOptions := a },
    (·.resolveOptions)⟩

def slots : List (Slot GraphOptions) :=
  [filesSlot,
   ⟨"recurse", decodeBool, fun a r => { r with recurse := a }, (·.recurse)⟩,
   excludeSlot,
   parserSlot,
   resolveSlot,
   ⟨"strictExtensions", decodeTexts, fun a r => { r with strictExtensions := a },
    (·.strictExtensions)⟩,
   ⟨"libraryDirs", decodeTexts, fun a r => { r with libraryDirs := a }, (·.libraryDirs)⟩,
   ⟨"output", OutputMode.decode, fun a r => { r with output := a }, (·.output)⟩]

def layout : Layout GraphOptions where
  slots := slots
  distinct := by decide
  get_store := by simp [slots, filesSlot, excludeSlot, parserSlot, resolveSlot]
  get_store_of_ne := by simp [slots, filesSlot, excludeSlot, parserSlot, resolveSlot]
  ext := by
    rintro ⟨⟩ ⟨⟩ h
    simpa [slots, filesSlot, excludeSlot, parserSlot, resolveSlot] using h

theorem fields_layout : layout.fields = fields := by
  simp only [Layout.fields, layout, slots, List.map_cons, List.map_nil, Slot.field, filesSlot,
    RecordField.of_map]
  rfl

theorem decode_eq_ok_iff {ms : Members} {options : GraphOptions} :
    GraphOptions.decode (.object ms none) = .ok options ↔ layout.Reads [] {} ms options := by
  rw [GraphOptions.decode, ← fields_layout]
  exact Layout.decodeRecord_eq_ok_iff

theorem parserSlot_mem : parserSlot ∈ layout.slots := by simp [layout, slots]

theorem resolveSlot_mem : resolveSlot ∈ layout.slots := by simp [layout, slots]

/-! ## Values that stand for the same option -/

/-- Values of a member that stand for the same option: a text and the list of it, and nested
options whose members are put in another order or get unknown ones between them. -/
inductive Alike : String → Document → Document → Prop where
  | file (s : String) : Alike "files" (.text (.ok s)) (.array [.text (.ok s)] none)
  | pattern (s : String) : Alike "exclude" (.text (.ok s)) (.array [.text (.ok s)] none)
  | parser {ms ns : Members} : Reworded ParserOptions.layout (fun _ _ _ => False) ms ns →
      Alike "parserOptions" (.object ms none) (.object ns none)
  | resolve {ms ns : Members} : Reworded ResolveOptions.layout (fun _ _ _ => False) ms ns →
      Alike "resolveOptions" (.object ms none) (.object ns none)

theorem decodeOneOrMany_text (s : String) :
    decodeOneOrMany (.array [.text (.ok s)] none) = decodeOneOrMany (.text (.ok s)) := rfl

/-- Alike values are decoded alike by the slot that they belong to. -/
theorem Alike.decode {k : String} {d e : Document} (h : Alike k d e) :
    ∃ s ∈ layout.slots, s.name = k ∧ ∀ a, s.decode d = .ok a → s.decode e = .ok a := by
  cases h with
  | file s =>
      refine ⟨filesSlot, by simp [layout, slots], rfl, fun a ha => ?_⟩
      rw [← ha]
      exact congrArg (Except.map _) (decodeOneOrMany_text s)
  | pattern s =>
      refine ⟨excludeSlot, by simp [layout, slots], rfl, fun a ha => ?_⟩
      rw [← ha]
      exact decodeOneOrMany_text s
  | parser hreworded =>
      refine ⟨parserSlot, parserSlot_mem, rfl, fun a ha => ?_⟩
      have hreads := ParserOptions.decode_eq_ok_iff.mp ha
      refine ParserOptions.decode_eq_ok_iff.mpr ?_
      exact hreads.reworded (fun _ _ _ => False.elim) hreworded
  | resolve hreworded =>
      refine ⟨resolveSlot, resolveSlot_mem, rfl, fun a ha => ?_⟩
      have hreads := ResolveOptions.decode_eq_ok_iff.mp ha
      refine ResolveOptions.decode_eq_ok_iff.mpr ?_
      exact hreads.reworded (fun _ _ _ => False.elim) hreworded

/-- **Options are decoded member by member.** From a text of an object that gives options, one gets
the same options after putting its members, or those of its parser or resolve options, in another
order, after adding members of unknown names with any JSON value, after writing a single file or
pattern as a list, and after changing the blanks between its tokens. Every option without a member
has its default, also inside of nested options that are given in part. -/
theorem ofJson_memberwise {text : String} {ms : Members} {options : GraphOptions}
    (htext : Spells (.padded (.object ms none)) text.toList)
    (hoptions : ofJson text = .ok options) :
    (∀ (ns : Members) (text' : String), Reworded layout Alike ms ns →
      Spells (.padded (.object ns none)) text'.toList → ofJson text' = .ok options) ∧
    (∀ text' : String, Respaced text.toList text'.toList → ofJson text' = .ok options) ∧
    (∀ slot ∈ layout.slots, Lacks ms slot.name → slot.get options = slot.get {}) ∧
    (∀ inner : Members, (.ok "parserOptions", .object inner none) ∈ ms →
      ∀ slot ∈ ParserOptions.layout.slots, Lacks inner slot.name →
        slot.get options.parserOptions = slot.get {}) ∧
    (∀ inner : Members, (.ok "resolveOptions", .object inner none) ∈ ms →
      ∀ slot ∈ ResolveOptions.layout.slots, Lacks inner slot.name →
        slot.get options.resolveOptions = slot.get {}) := by
  rw [ofJson, decodeWhole_of_spells htext] at hoptions
  have hreads := decode_eq_ok_iff.mp hoptions
  refine ⟨?_, ?_, ?_, ?_, ?_⟩
  · intro ns text' hreworded htext'
    rw [ofJson, decodeWhole_of_spells htext']
    exact decode_eq_ok_iff.mpr (hreads.reworded (fun _ _ _ => Alike.decode) hreworded)
  · intro text' hrespaced
    rw [ofJson, decodeWhole_of_spells (htext.respaced hrespaced)]
    exact hoptions
  · intro slot hslot hlacks
    exact (hreads.2 slot hslot).lacking hlacks
  · intro inner hinner slot hslot hlacks
    have hparser := (hreads.2 parserSlot parserSlot_mem).given _ hinner
    exact ((ParserOptions.decode_eq_ok_iff.mp hparser).2 slot hslot).lacking hlacks
  · intro inner hinner slot hslot hlacks
    have hresolve := (hreads.2 resolveSlot resolveSlot_mem).given _ hinner
    exact ((ResolveOptions.decode_eq_ok_iff.mp hresolve).2 slot hslot).lacking hlacks

def sampleOptions : GraphOptions where
  files := [⟨"a b.js"⟩]
  parserOptions := { sourceKind := .script }

def sampleJson : Value :=
  .object [("files", .text "a b.js"), ("parserOptions", .object [("sourceType", .text "script")])]

/-- The same options in another order, with the file in a list and with unknown members. -/
def sampleReworded : Value :=
  .object [("parserOptions", .object [("parser", .array []), ("sourceType", .text "script")]),
    ("note", .object [("files", .text "c.js")]), ("files", .array [.text "a b.js"])]

theorem faithful_sampleJson : sampleJson.Faithful := by
  simp [sampleJson, Value.faithful_object, Value.faithful_text]

theorem faithful_sampleNote : (Value.object [("files", .text "c.js")]).Faithful := by
  simp [Value.faithful_object, Value.faithful_text]

theorem faithful_sampleReworded : sampleReworded.Faithful := by
  have hparser : (Value.object
      [("parser", .array []), ("sourceType", .text "script")]).Faithful := by
    simp [Value.faithful_object, Value.faithful_array, Value.faithful_text]
  refine Value.faithful_object ?_
  simp [hparser, faithful_sampleNote, Value.faithful_array, Value.faithful_text]

theorem reworded_sample :
    Reworded layout Alike
      [(.ok "files", .text (.ok "a b.js")),
        (.ok "parserOptions", .object [(.ok "sourceType", .text (.ok "script"))] none)]
      [(.ok "parserOptions", .object [(.ok "parser", .array [] none),
          (.ok "sourceType", .text (.ok "script"))] none),
        (.ok "note", .object [(.ok "files", .text (.ok "c.js"))] none),
        (.ok "files", .array [.text (.ok "a b.js")] none)] := by
  have hinner := @Reworded.insert _ ParserOptions.layout (fun _ _ _ => False) "parser"
    (.array [] none) [] [(.ok "sourceType", .text (.ok "script"))] (by decide)
    ⟨_, .emptyArray blank_nil⟩
  have hfile := @Reworded.change _ layout Alike _ _ _ []
    [(.ok "parserOptions", .object [(.ok "sourceType", .text (.ok "script"))] none)]
    (.file "a b.js")
  have hparser := @Reworded.change _ layout Alike _ _ _
    [(.ok "files", .array [.text (.ok "a b.js")] none)] [] (.parser hinner)
  have hinsert := @Reworded.insert _ layout Alike "note"
    (.object [(.ok "files", .text (.ok "c.js"))] none)
    [(.ok "files", .array [.text (.ok "a b.js")] none),
      (.ok "parserOptions", .object [(.ok "parser", .array [] none),
          (.ok "sourceType", .text (.ok "script"))] none)] [] (by decide)
    ⟨_, faithful_sampleNote.compact⟩
  exact ((hfile.trans hparser).trans hinsert).trans (.perm (@List.perm_append_comm _ [_] [_, _]))

theorem ofJson_sampleJson : ofJson sampleJson.compact = .ok sampleOptions := by
  have hdecode : GraphOptions.decode sampleJson.toDocument = .ok sampleOptions := rfl
  exact decodeWhole_write faithful_sampleJson hdecode Value.compact (by simp)

theorem ofJson_memberwise_sample :
    ofJson sampleJson.compact = .ok sampleOptions ∧
    ofJson sampleReworded.pretty = .ok sampleOptions ∧
    Respaced sampleJson.compact.toList sampleJson.pretty.toList ∧
    ofJson sampleJson.pretty = .ok sampleOptions ∧
    sampleOptions.recurse = true ∧ sampleOptions.parserOptions.jsx = true := by
  have hrespaced : Respaced sampleJson.compact.toList sampleJson.pretty.toList := by
    decide +kernel
  have htext := faithful_sampleJson.spells_compact blank_nil
  have htext' := faithful_sampleReworded.spells_pretty blank_nil
  rw [String.ofList_nil, String.append_empty] at htext htext'
  obtain ⟨hreworded, hblanks, hlacks, hparser, -⟩ := ofJson_memberwise htext ofJson_sampleJson
  refine ⟨ofJson_sampleJson, hreworded _ _ reworded_sample htext', hrespaced, hblanks _ hrespaced,
    ?_, ?_⟩
  · refine hlacks ⟨"recurse", decodeBool, fun a r => { r with recurse := a }, (·.recurse)⟩ ?_ ?_
    · simp [layout, slots]
    · simp [Lacks, Value.membersToDocuments]
  · refine hparser _ (List.mem_cons_of_mem _ List.mem_cons_self)
      ⟨"jsx", decodeBool, fun a r => { r with jsx := a }, (·.jsx)⟩ ?_ ?_
    · simp [ParserOptions.layout, ParserOptions.slots]
    · simp [Lacks, Value.membersToDocuments]

end GraphOptions

end ModuleGraph
