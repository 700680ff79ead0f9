import ModuleGraph.Proofs.Grouping

set_option autoImplicit false

/-! # Programs put together

The facts of a program are put together from those of its parts. Behind the entries of the first
part, each with the names that the second part takes from the same specifier, come the entries for
specifiers that only the second part has (`Facts.imports_append`). So the place of a statement
decides where its names stand and nothing else: a re-export adds its items between what comes
before and what comes behind it, and a statement that is no import or export adds nothing
(`facts_of_parts`).
-/

namespace ModuleGraph

/-! ## Groups of a list and of its parts -/

namespace Facts

theorem eraseDups_filter (keep : String → Bool) (keys : List String) :
    (keys.filter keep).eraseDups = keys.eraseDups.filter keep := by
  induction keys using List.reverseRecOn with
  | nil => rfl
  | append_singleton keys key ih =>
      rw [List.filter_append, eraseDups_concat]
      cases hkeep : keep key with
      | false =>
          rw [List.filter_singleton, hkeep]
          split
          · simpa using ih
          · simpa [List.filter_append, hkeep] using ih
      | true =>
          rw [List.filter_singleton, hkeep, Bool.cond_true, eraseDups_concat, ih]
          by_cases hmem : key ∈ keys
          · rw [if_pos hmem, if_pos (List.mem_filter.mpr ⟨hmem, hkeep⟩)]
          · rw [if_neg hmem, if_neg fun h => hmem (List.mem_filter.mp h).1]
            simp [List.filter_append, hkeep]

/-- **The groups of two lists of entries,** one behind the other. -/
theorem grouped_append (front back : List (String × List String)) :
    grouped (front ++ back)
      = (grouped front).map (fun entry => (entry.1, entry.2 ++ namesIn entry.1 back))
        ++ (grouped back).filter fun entry => entry.1 ∉ front.map (·.1) := by
  have hnew : ((back.map (·.1)).removeAll (front.map (·.1))).eraseDups
      = (back.map (·.1)).eraseDups.filter fun key => key ∉ front.map (·.1) := by
    rw [List.removeAll, eraseDups_filter]
    exact List.filter_congr fun key _ => by simp
  rw [grouped_eq, grouped_eq, grouped_eq, List.map_append, List.eraseDups_append, List.map_append,
    List.map_map, List.filter_map, hnew]
  refine congrArg₂ (· ++ ·) ?_ ?_
  · exact List.map_congr_left fun key _ => by simp [namesIn_append]
  · -- A key that only the second list has gets no names from the first one.
    refine List.map_congr_left fun key hkey => ?_
    have hfront : key ∉ front.map (·.1) := by simpa using (List.mem_filter.mp hkey).2
    rw [namesIn_append, namesIn_of_not_mem hfront, List.nil_append]

/-! ## The facts of two programs -/

theorem exports_append (before after : List Source.Statement) :
    (ofStatements (before ++ after)).exports
      = (ofStatements before).exports ++ (ofStatements after).exports := by
  simp only [exports_ofStatements, List.flatMap_append]

/-- **The imports of two programs,** one behind the other. -/
theorem imports_append (before after : List Source.Statement) :
    (ofStatements (before ++ after)).imports
      = (ofStatements before).imports.map
          (fun entry => (entry.1, entry.2 ++ (ofStatements after).namesFrom entry.1))
        ++ (ofStatements after).imports.filter
          fun entry => entry.1 ∉ (ofStatements before).specifiers := by
  simp only [namesFrom_ofStatements, specifiers_ofStatements, List.mem_eraseDups]
  rw [imports_eq_grouped, imports_eq_grouped, imports_eq_grouped, List.filterMap_append,
    grouped_append]

theorem namesFrom_append (before after : List Source.Statement) (specifier : String) :
    (ofStatements (before ++ after)).namesFrom specifier
      = (ofStatements before).namesFrom specifier ++ (ofStatements after).namesFrom specifier := by
  simp only [namesFrom_ofStatements, List.filterMap_append, namesIn_append]

theorem namesFrom_cons (s : Source.Statement) (after : List Source.Statement)
    (specifier : String) :
    (ofStatements (s :: after)).namesFrom specifier
      = namesIn specifier s.import?.toList ++ (ofStatements after).namesFrom specifier := by
  rw [← List.singleton_append, namesFrom_append, namesFrom_ofStatements [s],
    filterMap_eq_flatMap, List.flatMap_singleton]

end Facts

/-! ## Statements in their places -/

namespace Source

namespace Statement

/-- The source of a re-export that is not one of types, and the items that are passed on from there.
A star passes on the module as a whole, perhaps under a name. -/
def reexport? : Statement → Option (String × List ExportItem)
  | .exportAll source name false =>
    some (source, [{ name := "*", exported := name.getD "*", typeOnly := false }])
  | .exportItems items (some source) false =>
    some (source, items.filter fun item => !item.typeOnly)
  | _ => none

def isImportOrExport : Statement → Bool
  | .importing _ | .exportDefault _ | .exportAll _ _ _ | .exportItems _ _ _
  | .exportDeclaration _ => true
  | .exportAssignment | .exportNamespace | .declaration _ | .other _ => false

theorem contributions_of_reexport? {s : Statement} {source : String} {items : List ExportItem}
    (h : s.reexport? = some (source, items)) :
    s.exports = items.map (·.exported) ∧ s.import? = some (source, items.map (·.name)) := by
  unfold reexport? at h
  split at h <;> cases h <;> exact ⟨rfl, rfl⟩

theorem contributions_of_not_isImportOrExport {s : Statement} (h : s.isImportOrExport = false) :
    s.exports = [] ∧ s.import? = none := by
  cases s with
  | exportAssignment | exportNamespace => exact ⟨rfl, rfl⟩
  | declaration d => exact ⟨rfl, rfl⟩
  | other inner => exact ⟨rfl, rfl⟩
  | _ => cases h

end Statement

/-- A statement that contributes nothing changes nothing, wherever it stands. -/
theorem ofStatements_insert {s : Statement} (hexports : s.exports = []) (himport : s.import? = none)
    (before after : List Statement) :
    Facts.ofStatements (before ++ s :: after) = Facts.ofStatements (before ++ after) :=
  Facts.ofStatements_congr (by simp [hexports]) (by simp [himport])

/-- **The facts of a program are put together from its parts.** Exports come one after the other.
Imports keep the order of the first part, where each specifier gets the names of the second part
behind its own, and then come those of the second part that the first one does not have. A
re-export that is not one of types adds, at its place, the exported names of the items it passes on
to the exports and their names in the source to the entry of the source, which is there even if no
item is passed on. A statement that is no import or export declaration changes nothing, whatever
is inside it. -/
theorem facts_of_parts (before after : List Statement) :
    (Facts.ofStatements (before ++ after)).exports
      = (Facts.ofStatements before).exports ++ (Facts.ofStatements after).exports ∧
    (Facts.ofStatements (before ++ after)).imports
      = (Facts.ofStatements before).imports.map
          (fun entry => (entry.1, entry.2 ++ (Facts.ofStatements after).namesFrom entry.1))
        ++ (Facts.ofStatements after).imports.filter
          (fun entry => entry.1 ∉ (Facts.ofStatements before).specifiers) ∧
    (∀ s source items, s.reexport? = some (source, items) →
      (Facts.ofStatements (before ++ s :: after)).exports
        = (Facts.ofStatements before).exports ++ items.map (·.exported)
          ++ (Facts.ofStatements after).exports ∧
      source ∈ (Facts.ofStatements (before ++ s :: after)).specifiers ∧
      ∀ specifier, (Facts.ofStatements (before ++ s :: after)).namesFrom specifier
        = (Facts.ofStatements before).namesFrom specifier
          ++ (if source = specifier then items.map (·.name) else [])
          ++ (Facts.ofStatements after).namesFrom specifier) ∧
    (∀ s : Statement, s.isImportOrExport = false →
      Facts.ofStatements (before ++ s :: after) = Facts.ofStatements (before ++ after)) := by
  refine ⟨Facts.exports_append before after, Facts.imports_append before after, ?_, ?_⟩
  · intro s source items hs
    obtain ⟨hexports, himport⟩ := Statement.contributions_of_reexport? hs
    refine ⟨?_, ?_, fun specifier => ?_⟩
    · simp only [Facts.exports_ofStatements, List.flatMap_append, List.flatMap_cons, hexports,
        List.append_assoc]
    · rw [Facts.mem_specifiers_ofStatements]
      exact ⟨s, by simp, _, himport⟩
    · rw [Facts.namesFrom_append, Facts.namesFrom_cons, himport, Option.toList_some,
        Facts.namesIn_singleton, List.append_assoc]
  · intro s hs
    obtain ⟨hexports, himport⟩ := Statement.contributions_of_not_isImportOrExport hs
    exact ofStatements_insert hexports himport before after

/-- `export { filter as keep, type T } from "lodash";` -/
def sampleReexport : Statement :=
  .exportItems [⟨"filter", "keep", false⟩, ⟨"T", "T", true⟩] (some "lodash") false

/-- A block with `import "./inner";` inside. -/
def sampleBlock : Statement := .other [.importing ⟨"./inner", false, none⟩]

/-- `import { map } from "lodash";` -/
def sampleImport : Statement := .importing ⟨"lodash", false, some [.named "map" false]⟩

theorem facts_of_parts_sample :
    sampleReexport.reexport? = some ("lodash", [⟨"filter", "keep", false⟩]) ∧
    (Facts.ofStatements ([sampleImport] ++ sampleReexport :: [sampleImport])).exports = ["keep"] ∧
    (Facts.ofStatements ([sampleImport] ++ sampleReexport :: [sampleImport])).namesFrom "lodash"
      = ["map", "filter", "map"] ∧
    sampleBlock.isImportOrExport = false ∧
    Facts.ofStatements ([sampleImport] ++ sampleBlock :: [sampleReexport])
      = Facts.ofStatements ([sampleImport] ++ [sampleReexport]) := by
  have hreexport : sampleReexport.reexport? = some ("lodash", [⟨"filter", "keep", false⟩]) := by
    decide
  obtain ⟨hexports, -, hnames⟩ :=
    (facts_of_parts [sampleImport] [sampleImport]).2.2.1 sampleReexport _ _ hreexport
  have hblock := (facts_of_parts [sampleImport] [sampleReexport]).2.2.2 sampleBlock rfl
  exact ⟨hreexport, hexports, hnames "lodash", rfl, hblock⟩

end Source

end ModuleGraph
