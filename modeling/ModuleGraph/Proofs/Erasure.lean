import ModuleGraph.Proofs.Grouping

set_option autoImplicit false

/-! # What is left when the types are gone

Erasing a program drops what only its types need: imports and exports that are marked as types,
marked items of other lists, and declarations of types (`erase`). Nothing of this should count for
the facts. Two kinds of statements do count, though they are erased: a default export of an
interface, and an export list with a source in which each single item is marked. All others leave
no trace (`ofStatements_erase`), and so the facts can be compared before and after (`facts_erase`).
-/

namespace ModuleGraph.Source

/-! ## Erasing types -/

/-- Only the type of the item is imported. -/
def ImportItem.isTypeOnly : ImportItem → Bool
  | .named _ typeOnly => typeOnly
  | .default | .all => false

/-- A list without the items that are only types. Nothing is left of a list that had no others. -/
def eraseItems? {α : Type} (isTypeOnly : α → Bool) (items : List α) : Option (List α) :=
  let kept := items.filter fun item => !isTypeOnly item
  if kept.isEmpty && !items.isEmpty then none else some kept

/-- The declaration is about types alone, or about things that exist elsewhere. -/
def Declaration.isTypeOnly (d : Declaration) : Bool :=
  d.ambient ||
    match d.kind with
    | .interface _ | .typeAlias _ => true
    | _ => false

namespace Statement

/-- What is left of a statement without its types. -/
def erase? : Statement → Option Statement
  | .importing d =>
    if d.typeOnly then none
    else
      match d.items with
      | none => some (.importing d)
      | some items => (eraseItems? ImportItem.isTypeOnly items).map fun kept =>
          .importing { d with items := some kept }
  | .exportDefault kind => if kind = .interfaceDefinition then none else some (.exportDefault kind)
  | .exportAll source name typeOnly =>
    if typeOnly then none else some (.exportAll source name typeOnly)
  | .exportItems items source typeOnly =>
    if typeOnly then none
    else (eraseItems? ExportItem.typeOnly items).map fun kept =>
      .exportItems kept source typeOnly
  | .exportDeclaration d => if d.isTypeOnly then none else some (.exportDeclaration d)
  | .exportAssignment => some .exportAssignment
  | .exportNamespace => some .exportNamespace
  | .declaration d => some (.declaration d)
  | .other inner => some (.other inner)

def isDefaultInterface : Statement → Bool
  | .exportDefault kind => kind = .interfaceDefinition
  | _ => false

/-- The source of an export list of which nothing is left, because each single item is marked. -/
def hollowSource? : Statement → Option String
  | .exportItems items (some source) false =>
    if (eraseItems? ExportItem.typeOnly items).isNone then some source else none
  | _ => none

/-- The statement is gone without its types, but has a part in the facts. -/
def leavesTrace (s : Statement) : Bool := s.isDefaultInterface || s.hollowSource?.isSome

end Statement

def erase (program : List Statement) : List Statement := program.filterMap Statement.erase?

/-! ## Statement by statement -/

theorem ImportItem.name?_eq_none_iff (item : ImportItem) :
    item.name? = none ↔ item.isTypeOnly = true := by
  cases item with
  | default => simp [name?, isTypeOnly]
  | all => simp [name?, isTypeOnly]
  | named imported typeOnly => cases typeOnly <;> simp [name?, isTypeOnly]

/-- Items that are only types give no names. -/
theorem filterMap_name?_filter (items : List ImportItem) :
    (items.filter fun item => !item.isTypeOnly).filterMap ImportItem.name?
      = items.filterMap ImportItem.name? := by
  rw [List.filterMap_filter]
  refine List.filterMap_congr fun item _ => ?_
  cases htype : item.isTypeOnly with
  | true => simp [(item.name?_eq_none_iff).mpr htype]
  | false => rfl

/-- A list of items gives no names only if all of them are types. -/
theorem isEmpty_filterMap_name? (items : List ImportItem) :
    (items.filterMap ImportItem.name?).isEmpty
      = (items.filter fun item => !item.isTypeOnly).isEmpty := by
  rw [Bool.eq_iff_iff, List.isEmpty_iff, List.isEmpty_iff, List.filterMap_eq_nil_iff,
    List.filter_eq_nil_iff]
  simp only [ImportItem.name?_eq_none_iff, Bool.not_eq_true', Bool.not_eq_false]

theorem ImportDeclaration.import?_of_items (source : String) (items : List ImportItem) :
    (ImportDeclaration.mk source false (some items)).import?
      = (eraseItems? ImportItem.isTypeOnly items).map fun kept =>
          (source, kept.filterMap ImportItem.name?) := by
  have hnames := filterMap_name?_filter items
  have hempty := isEmpty_filterMap_name? items
  simp only [import?, eraseItems?, Bool.false_eq_true, if_false, hempty]
  split
  · rfl
  · rw [Option.map_some, hnames]

/-- Nothing is left of the items, or what is left has nothing more to erase. -/
theorem eraseItems?_cases {α : Type} (isTypeOnly : α → Bool) (items : List α) :
    (eraseItems? isTypeOnly items = none ∧ items.filter (fun item => !isTypeOnly item) = []) ∨
    ∃ kept, eraseItems? isTypeOnly items = some kept ∧
      items.filter (fun item => !isTypeOnly item) = kept ∧
      kept.filter (fun item => !isTypeOnly item) = kept ∧
      eraseItems? isTypeOnly kept = some kept := by
  have htwice : (items.filter fun item => !isTypeOnly item).filter (fun item => !isTypeOnly item)
      = items.filter fun item => !isTypeOnly item := by
    rw [List.filter_filter]
    simp
  generalize hkept : items.filter (fun item => !isTypeOnly item) = kept at htwice ⊢
  have hitems : eraseItems? isTypeOnly items
      = if kept.isEmpty && !items.isEmpty then none else some kept := by
    rw [← hkept]
    rfl
  have hagain : eraseItems? isTypeOnly kept = some kept := by
    simp [eraseItems?, htwice]
  cases hempty : kept.isEmpty && !items.isEmpty with
  | true =>
      rw [Bool.and_eq_true, List.isEmpty_iff] at hempty
      exact Or.inl ⟨by simp [hitems, hempty], hempty.1⟩
  | false => exact Or.inr ⟨kept, by simp [hitems, hempty], rfl, htwice, hagain⟩

theorem Declaration.exports_of_isTypeOnly {d : Declaration} (h : d.isTypeOnly = true) :
    d.exports = [] := by
  have herased : d.isErased = true := by
    obtain ⟨kind, ambient⟩ := d
    cases ambient with
    | true => rfl
    | false => cases kind <;> simp_all [isTypeOnly, isErased]
  rw [exports, if_pos herased]

namespace Statement

/-- **What erasing does to a statement:** it keeps the part of the statement in the facts, or it
drops a statement that has none, or one of the two kinds of statements that have one. -/
inductive Erasing (s : Statement) : Prop where
  | keeps (left : Statement) : s.erase? = some left → s.leavesTrace = false →
      left.exports = s.exports → left.import? = s.import? → Erasing s
  | drops : s.erase? = none → s.leavesTrace = false → s.exports = [] → s.import? = none →
      Erasing s
  | dropsInterface : s.erase? = none → s.isDefaultInterface = true → s.hollowSource? = none →
      s.exports = [defaultName] → s.import? = none → Erasing s
  | dropsList (source : String) : s.erase? = none → s.isDefaultInterface = false →
      s.hollowSource? = some source → s.exports = [] → s.import? = some (source, []) → Erasing s

theorem erasing_importing (d : ImportDeclaration) : (importing d).Erasing := by
  obtain ⟨source, typeOnly, items⟩ := d
  cases typeOnly with
  | true => exact .drops rfl rfl rfl rfl
  | false =>
      cases items with
      | none => exact .keeps _ rfl rfl rfl rfl
      | some items =>
          have himport : (importing ⟨source, false, some items⟩).import? = _ :=
            ImportDeclaration.import?_of_items source items
          have herase : (importing ⟨source, false, some items⟩).erase?
              = (eraseItems? ImportItem.isTypeOnly items).map fun kept =>
                  importing ⟨source, false, some kept⟩ := rfl
          rcases eraseItems?_cases ImportItem.isTypeOnly items with
            ⟨hnone, -⟩ | ⟨kept, hsome, -, -, hagain⟩
          · rw [hnone] at himport herase
            exact .drops herase rfl rfl himport
          · rw [hsome] at himport herase
            refine .keeps _ herase rfl rfl ?_
            have hkept : (importing ⟨source, false, some kept⟩).import? = _ :=
              ImportDeclaration.import?_of_items source kept
            rw [hkept, himport, hagain]

theorem erasing_exportItems (items : List ExportItem) (source : Option String) (typeOnly : Bool) :
    (exportItems items source typeOnly).Erasing := by
  cases typeOnly with
  | true => cases source <;> exact .drops rfl rfl rfl rfl
  | false =>
      have herase : (exportItems items source false).erase?
          = (eraseItems? ExportItem.typeOnly items).map fun kept =>
              exportItems kept source false := rfl
      rcases eraseItems?_cases ExportItem.typeOnly items with
        ⟨hnone, hfilter⟩ | ⟨kept, hsome, hfilter, htwice, -⟩
      · have hvalues : valueItems items = [] := hfilter
        rw [hnone] at herase
        cases source with
        | none => exact .drops herase rfl (by rw [exports, hvalues]; rfl) rfl
        | some source =>
            refine .dropsList source herase rfl ?_ (by rw [exports, hvalues]; rfl)
              (by rw [import?, hvalues]; rfl)
            rw [hollowSource?, hnone]
            rfl
      · have hvalues : valueItems items = kept := hfilter
        have hkept : valueItems kept = kept := htwice
        rw [hsome] at herase
        refine .keeps _ herase ?_ ?_ ?_
        · cases source with
          | none => rfl
          | some source => rw [leavesTrace, hollowSource?, hsome]; rfl
        · rw [exports, exports, hvalues, hkept]
        · cases source with
          | none => rfl
          | some source => rw [import?, import?, hvalues, hkept]

theorem erasing (s : Statement) : s.Erasing := by
  cases s with
  | importing d => exact erasing_importing d
  | exportItems items source typeOnly => exact erasing_exportItems items source typeOnly
  | exportDefault kind =>
      cases kind with
      | interfaceDefinition => exact .dropsInterface rfl rfl rfl rfl rfl
      | _ => exact .keeps _ rfl rfl rfl rfl
  | exportAll source name typeOnly =>
      cases typeOnly with
      | true => exact .drops rfl rfl rfl rfl
      | false => exact .keeps _ rfl rfl rfl rfl
  | exportDeclaration d =>
      cases htype : d.isTypeOnly with
      | true =>
          exact .drops (if_pos htype) rfl (Declaration.exports_of_isTypeOnly htype) rfl
      | false => exact .keeps _ (if_neg (by simp [htype])) rfl rfl rfl
  | exportAssignment => exact .keeps _ rfl rfl rfl rfl
  | exportNamespace => exact .keeps _ rfl rfl rfl rfl
  | declaration d => exact .keeps _ rfl rfl rfl rfl
  | other inner => exact .keeps _ rfl rfl rfl rfl

end Statement

/-! ## Programs -/

theorem erase_cons_none {s : Statement} (h : s.erase? = none) (rest : List Statement) :
    erase (s :: rest) = erase rest :=
  List.filterMap_cons_none h

theorem erase_cons_some {s left : Statement} (h : s.erase? = some left) (rest : List Statement) :
    erase (s :: rest) = left :: erase rest :=
  List.filterMap_cons_some h

/-- The program without the statements that are erased and still have a part in the facts. -/
def withoutTraces (program : List Statement) : List Statement :=
  program.filter fun s => !s.leavesTrace

theorem withoutTraces_cons (s : Statement) (rest : List Statement) :
    withoutTraces (s :: rest)
      = if s.leavesTrace then withoutTraces rest else s :: withoutTraces rest := by
  rw [withoutTraces, List.filter_cons]
  cases s.leavesTrace <;> rfl

theorem Statement.leavesTrace_of_isDefaultInterface {s : Statement}
    (h : s.isDefaultInterface = true) : s.leavesTrace = true := by
  rw [leavesTrace, h, Bool.true_or]

theorem Statement.leavesTrace_of_hollowSource? {s : Statement} {source : String}
    (h : s.hollowSource? = some source) : s.leavesTrace = true := by
  rw [leavesTrace, h, Option.isSome_some, Bool.or_true]

theorem Statement.exports_erase? (s : Statement) :
    s.erase?.elim [] exports = if s.leavesTrace then [] else s.exports := by
  cases s.erasing with
  | keeps left herase htrace hexports himport => simp [herase, htrace, hexports]
  | drops herase htrace hexports himport => simp [herase, hexports]
  | dropsInterface herase hdefault hsource hexports himport =>
      simp [herase, leavesTrace_of_isDefaultInterface hdefault]
  | dropsList source herase hdefault hsource hexports himport => simp [herase, hexports]

theorem Statement.import?_erase? (s : Statement) :
    s.erase?.elim [] (·.import?.toList) = if s.leavesTrace then [] else s.import?.toList := by
  cases s.erasing with
  | keeps left herase htrace hexports himport => simp [herase, htrace, himport]
  | drops herase htrace hexports himport => simp [herase, himport]
  | dropsInterface herase hdefault hsource hexports himport => simp [herase, himport]
  | dropsList source herase hdefault hsource hexports himport =>
      simp [herase, leavesTrace_of_hollowSource? hsource]

/-- What holds of each statement holds of the program, for all that statements contribute. -/
theorem flatMap_erase {α : Type} {f : Statement → List α}
    (hf : ∀ s : Statement, s.erase?.elim [] f = if s.leavesTrace then [] else f s)
    (program : List Statement) : (erase program).flatMap f = (withoutTraces program).flatMap f := by
  induction program with
  | nil => rfl
  | cons s rest ih =>
      have hs : (erase (s :: rest)).flatMap f = s.erase?.elim [] f ++ (erase rest).flatMap f := by
        cases herase : s.erase? with
        | none => rw [erase_cons_none herase]; rfl
        | some left => rw [erase_cons_some herase]; rfl
      rw [hs, hf, ih, withoutTraces_cons]
      cases s.leavesTrace <;> rfl

/-- **The facts of an erased program** are those of the program without the statements that leave
a trace. -/
theorem ofStatements_erase (program : List Statement) :
    Facts.ofStatements (erase program) = Facts.ofStatements (withoutTraces program) :=
  Facts.ofStatements_congr (flatMap_erase Statement.exports_erase? program)
    (flatMap_erase Statement.import?_erase? program)

/-! ## Traces -/

theorem Statement.exports_of_leavesTrace {s : Statement} (h : s.leavesTrace = true) :
    s.exports = [] ↔ s.isDefaultInterface = false := by
  cases s.erasing with
  | keeps left herase htrace hexports himport => simp [h] at htrace
  | drops herase htrace hexports himport => simp [h] at htrace
  | dropsInterface herase hdefault hsource hexports himport => simp [hexports, hdefault]
  | dropsList source herase hdefault hsource hexports himport => simp [hexports, hdefault]

theorem Statement.import?_of_leavesTrace {s : Statement} (h : s.leavesTrace = true) :
    s.import? = s.hollowSource?.map fun source => (source, []) := by
  cases s.erasing with
  | keeps left herase htrace hexports himport => simp [h] at htrace
  | drops herase htrace hexports himport => simp [h] at htrace
  | dropsInterface herase hdefault hsource hexports himport => simp [hsource, himport]
  | dropsList source herase hdefault hsource hexports himport => simp [hsource, himport]

/-- **Exports** stay the same unless an interface is the default export. -/
theorem exports_withoutTraces_iff (program : List Statement) :
    (Facts.ofStatements (withoutTraces program)).exports = (Facts.ofStatements program).exports ↔
      ∀ s ∈ program, s.isDefaultInterface = false := by
  rw [Facts.exports_ofStatements, Facts.exports_ofStatements, withoutTraces,
    flatMap_filter_eq_iff]
  refine forall₂_congr fun s _ => ?_
  cases htrace : s.leavesTrace with
  | true => simp [Statement.exports_of_leavesTrace htrace]
  | false =>
      rw [Statement.leavesTrace, Bool.or_eq_false_iff] at htrace
      simp [htrace.1]

/-- A trace names nothing. -/
theorem namesFrom_withoutTraces (program : List Statement) (specifier : String) :
    (Facts.ofStatements (withoutTraces program)).namesFrom specifier
      = (Facts.ofStatements program).namesFrom specifier := by
  rw [Facts.namesFrom_ofStatements, Facts.namesFrom_ofStatements, Facts.namesIn_filterMap,
    Facts.namesIn_filterMap, withoutTraces, flatMap_filter_eq_iff]
  intro s _ htrace
  rw [Statement.import?_of_leavesTrace (by simpa using htrace)]
  cases s.hollowSource? with
  | none => rfl
  | some source => exact (Facts.namesIn_singleton specifier (source, [])).trans (ite_self _)

/-- The specifiers that are lost are those of traces. -/
theorem mem_specifiers_iff (program : List Statement) (specifier : String) :
    specifier ∈ (Facts.ofStatements program).specifiers ↔
      specifier ∈ (Facts.ofStatements (withoutTraces program)).specifiers ∨
        ∃ s ∈ program, s.hollowSource? = some specifier := by
  simp only [Facts.mem_specifiers_ofStatements, withoutTraces, List.mem_filter]
  constructor
  · rintro ⟨s, hs, names, himport⟩
    cases htrace : s.leavesTrace with
    | false => exact Or.inl ⟨s, ⟨hs, by simp [htrace]⟩, names, himport⟩
    | true =>
        rw [Statement.import?_of_leavesTrace htrace, Option.map_eq_some_iff] at himport
        obtain ⟨source, hsource, heq⟩ := himport
        cases heq
        exact Or.inr ⟨s, hs, hsource⟩
  · rintro (⟨s, ⟨hs, -⟩, hnames⟩ | ⟨s, hs, hsource⟩)
    · exact ⟨s, hs, hnames⟩
    · refine ⟨s, hs, [], ?_⟩
      rw [Statement.import?_of_leavesTrace (Statement.leavesTrace_of_hollowSource? hsource), hsource]
      rfl

/-- **Type-only syntax in the facts.** Without its types, a program has the facts that it has
without two kinds of statements: default exports of interfaces, and export lists with a source in
which each single item is marked as a type. The first ones, and nothing else, change the exports.
The second ones never change which names are taken from a specifier; they only mention their
source. So the facts are the same if and only if no interface is the default export and the
specifiers are first mentioned in the same order, and in particular if there are no such
statements. -/
theorem facts_erase (program : List Statement) :
    Facts.ofStatements (erase program) = Facts.ofStatements (withoutTraces program) ∧
    ((Facts.ofStatements (erase program)).exports = (Facts.ofStatements program).exports ↔
      ∀ s ∈ program, s.isDefaultInterface = false) ∧
    (∀ specifier, (Facts.ofStatements (erase program)).namesFrom specifier
      = (Facts.ofStatements program).namesFrom specifier) ∧
    (∀ specifier, specifier ∈ (Facts.ofStatements program).specifiers ↔
      specifier ∈ (Facts.ofStatements (erase program)).specifiers ∨
        ∃ s ∈ program, s.hollowSource? = some specifier) ∧
    (Facts.ofStatements (erase program) = Facts.ofStatements program ↔
      (∀ s ∈ program, s.isDefaultInterface = false) ∧
        (Facts.ofStatements (erase program)).specifiers
          = (Facts.ofStatements program).specifiers) ∧
    ((∀ s ∈ program, s.isDefaultInterface = false ∧ s.hollowSource? = none) →
      Facts.ofStatements (erase program) = Facts.ofStatements program) := by
  rw [ofStatements_erase]
  have himports : (Facts.ofStatements (withoutTraces program)).imports
        = (Facts.ofStatements program).imports ↔
      (Facts.ofStatements (withoutTraces program)).specifiers
        = (Facts.ofStatements program).specifiers := by
    rw [Facts.specifiers, Facts.specifiers, Facts.imports_eq_grouped, Facts.imports_eq_grouped]
    refine Facts.grouped_eq_grouped_iff fun specifier => ?_
    rw [← Facts.namesFrom_ofStatements, ← Facts.namesFrom_ofStatements,
      namesFrom_withoutTraces]
  refine ⟨rfl, exports_withoutTraces_iff program, namesFrom_withoutTraces program,
    mem_specifiers_iff program, ?_, fun hnone => ?_⟩
  · rw [Facts.eq_iff, exports_withoutTraces_iff, himports]
  · have hall : withoutTraces program = program := by
      refine List.filter_eq_self.mpr fun s hs => ?_
      simp [Statement.leavesTrace, hnone s hs]
    rw [hall]

/-- `import type { A } from "./a"; import b, { type B } from "./b"; export type C = string;` and
`export { type D, d } from "./d";`. -/
def sampleTyped : List Statement :=
  [.importing ⟨"./a", true, some [.named "A" false]⟩,
    .importing ⟨"./b", false, some [.default, .named "B" true]⟩,
    .exportDeclaration ⟨.typeAlias "C", false⟩,
    .exportItems [⟨"D", "D", true⟩, ⟨"d", "d", false⟩] (some "./d") false]

theorem facts_erase_sample :
    (∀ s ∈ sampleTyped, s.isDefaultInterface = false ∧ s.hollowSource? = none) ∧
      Facts.ofStatements (erase sampleTyped) = Facts.ofStatements sampleTyped := by
  have hnone : ∀ s ∈ sampleTyped, s.isDefaultInterface = false ∧ s.hollowSource? = none := by
    decide
  exact ⟨hnone, (facts_erase sampleTyped).2.2.2.2.2 hnone⟩

/-- **Types leave traces:** with `export { type A } from "./types"` and with
`export default interface Props {}`, nothing is left of the program, but of the facts. -/
theorem types_leave_traces :
    (erase [.exportItems [⟨"A", "A", true⟩] (some "./types") false] = [] ∧
      Facts.ofStatements [.exportItems [⟨"A", "A", true⟩] (some "./types") false]
        = { exports := [], imports := [("./types", [])] }) ∧
    (erase [.exportDefault .interfaceDefinition] = [] ∧
      Facts.ofStatements [.exportDefault .interfaceDefinition]
        = { exports := [defaultName], imports := [] }) :=
  ⟨⟨rfl, rfl⟩, rfl, rfl⟩

end ModuleGraph.Source
