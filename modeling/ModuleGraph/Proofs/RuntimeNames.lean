import ModuleGraph.Proofs.Grouping

set_option autoImplicit false

/-! # The names of classes and functions that run

Exported classes and exported functions with a body are there when the program runs, unless they
are ambient. Each of them has one entry in the exports, in the order of the source, with one
exception: abstract classes are left out (`exports_of_runtime_declarations`), although they are
classes like others when the program runs.
-/

namespace ModuleGraph.Source

namespace Statement

/-- The name of an exported class, or of an exported function with a body, that is there when the
program runs. -/
def runtimeName? : Statement → Option String
  | .exportDeclaration ⟨.class name _, false⟩ => name
  | .exportDeclaration ⟨.function name true, false⟩ => name
  | _ => none

def isAbstractClass : Statement → Bool
  | .exportDeclaration ⟨.class _ isAbstract, _⟩ => isAbstract
  | _ => false

theorem exports_of_isAbstractClass {s : Statement} (h : s.isAbstractClass = true) :
    s.exports = [] := by
  cases s with
  | exportDeclaration d =>
      obtain ⟨kind, ambient⟩ := d
      cases kind with
      | «class» name isAbstract =>
          obtain rfl : isAbstract = true := h
          exact if_pos (Bool.or_true ambient)
      | _ => cases h
  | _ => cases h

theorem exports_of_runtimeName? {s : Statement} {name : String} (h : s.runtimeName? = some name) :
    s.exports = if s.isAbstractClass then [] else [name] := by
  cases s with
  | exportDeclaration d =>
      obtain ⟨kind, ambient⟩ := d
      cases kind with
      | function name' hasBody =>
          cases ambient <;> cases hasBody <;> cases h
          rfl
      | «class» name' isAbstract =>
          cases ambient <;> cases isAbstract <;> cases h <;> rfl
      | _ => cases ambient <;> cases h
  | _ => cases h

end Statement

/-- Without its abstract classes, a program has the same facts. -/
theorem ofStatements_filter_isAbstractClass (program : List Statement) :
    Facts.ofStatements (program.filter fun s => !s.isAbstractClass)
      = Facts.ofStatements program := by
  have hexports : ∀ s ∈ program, (!s.isAbstractClass) = false → s.exports = [] :=
    fun s _ h => Statement.exports_of_isAbstractClass (by simpa using h)
  have himports : ∀ s ∈ program, (!s.isAbstractClass) = false → s.import?.toList = [] := by
    intro s _ h
    cases s with
    | exportDeclaration d => rfl
    | _ => cases h
  exact Facts.ofStatements_congr ((flatMap_filter_eq_iff _ _ program).mpr hexports)
    ((flatMap_filter_eq_iff _ _ program).mpr himports)

/-- One entry for each class and each function that runs, if the class is not abstract. -/
theorem runtimeNames_sublist_exports (program : List Statement) :
    ((program.filter fun s => !s.isAbstractClass).filterMap Statement.runtimeName?).Sublist
      (Facts.ofStatements program).exports := by
  rw [← ofStatements_filter_isAbstractClass, Facts.exports_ofStatements,
    filterMap_eq_flatMap]
  refine List.Sublist.flatMap_right _ fun s hs => ?_
  have hconcrete : s.isAbstractClass = false := by simpa using (List.mem_filter.mp hs).2
  cases hname : s.runtimeName? with
  | none => exact List.nil_sublist _
  | some name =>
      rw [Statement.exports_of_runtimeName? hname, hconcrete]
      exact List.Sublist.refl _

/-- **Classes and functions that run.** The exports of a program have, in the order of the source,
one entry for each exported class and each exported function with a body, unless they are ambient
or the class is abstract. Wherever such a declaration stands, it adds its name once and nothing
else to the exports, and an abstract class adds nothing: the program has the same facts without
its abstract classes. So every class and every function that runs is exported if no class is
abstract. -/
theorem exports_of_runtime_declarations (program : List Statement) :
    ((program.filter fun s => !s.isAbstractClass).filterMap Statement.runtimeName?).Sublist
      (Facts.ofStatements program).exports ∧
    (∀ before s after name, program = before ++ s :: after → s.runtimeName? = some name →
      (Facts.ofStatements program).exports
        = (Facts.ofStatements before).exports ++ (if s.isAbstractClass then [] else [name])
          ++ (Facts.ofStatements after).exports) ∧
    Facts.ofStatements program
      = Facts.ofStatements (program.filter fun s => !s.isAbstractClass) ∧
    ((∀ s ∈ program, s.isAbstractClass = false) →
      (program.filterMap Statement.runtimeName?).Sublist (Facts.ofStatements program).exports) := by
  refine ⟨runtimeNames_sublist_exports program, ?_,
    (ofStatements_filter_isAbstractClass program).symm, fun hconcrete => ?_⟩
  · rintro before s after name rfl hname
    simp only [Facts.exports_ofStatements, List.flatMap_append, List.flatMap_cons,
      Statement.exports_of_runtimeName? hname, List.append_assoc]
  · have hsublist := runtimeNames_sublist_exports program
    have hall : (program.filter fun s => !s.isAbstractClass) = program :=
      List.filter_eq_self.mpr fun s hs => by simp [hconcrete s hs]
    rwa [hall] at hsublist

/-- `export function f(): void; export function f() {}` and `export class A {}`. -/
def sampleRuntime : List Statement :=
  [.exportDeclaration ⟨.function (some "f") false, false⟩,
    .exportDeclaration ⟨.function (some "f") true, false⟩,
    .exportDeclaration ⟨.class (some "A") false, false⟩]

theorem exports_of_runtime_declarations_sample :
    (∀ s ∈ sampleRuntime, s.isAbstractClass = false) ∧
      ["f", "A"].Sublist (Facts.ofStatements sampleRuntime).exports ∧
      (Facts.ofStatements sampleRuntime).exports
        = (Facts.ofStatements (sampleRuntime.take 1)).exports ++ ["f"]
          ++ (Facts.ofStatements (sampleRuntime.drop 2)).exports := by
  have hconcrete : ∀ s ∈ sampleRuntime, s.isAbstractClass = false := by decide
  obtain ⟨-, hplace, -, hsublist⟩ := exports_of_runtime_declarations sampleRuntime
  exact ⟨hconcrete, hsublist hconcrete, hplace (sampleRuntime.take 1) _ _ "f" rfl rfl⟩

/-- With `export abstract class A {}`, the name of a class that runs is missing. -/
theorem abstract_class_not_exported :
    Statement.runtimeName? (.exportDeclaration ⟨.class (some "A") true, false⟩) = some "A" ∧
      (Facts.ofStatements [.exportDeclaration ⟨.class (some "A") true, false⟩]).exports = [] :=
  ⟨rfl, rfl⟩

end ModuleGraph.Source
