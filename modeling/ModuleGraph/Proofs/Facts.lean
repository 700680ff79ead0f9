import ModuleGraph.Source.Extract

set_option autoImplicit false

/-! # Facts from statements

The exports of a source are those of its statements, one after the other
(`exports_ofStatements`), and its imports are put together from the statements that import
something (`imports_ofStatements`).
-/

namespace ModuleGraph.Facts

theorem eq_iff (facts facts' : Facts) :
    facts = facts' ↔ facts.exports = facts'.exports ∧ facts.imports = facts'.imports := by
  cases facts
  cases facts'
  rw [mk.injEq]

/-! ## Statement by statement -/

theorem exports_addStatement (facts : Facts) (statement : Source.Statement) :
    (facts.addStatement statement).exports = facts.exports ++ statement.exports := by
  rw [addStatement]
  cases statement.import? with
  | none => rfl
  | some entry => rfl

theorem imports_addStatement (facts : Facts) (statement : Source.Statement) :
    (facts.addStatement statement).imports
      = (statement.import?).toList.foldl (fun acc entry => appendTo entry.1 entry.2 acc)
          facts.imports := by
  rw [addStatement]
  cases statement.import? with
  | none => rfl
  | some entry => rfl

/-- **The exports of a source** are those of its statements, in their order. -/
theorem exports_ofStatements (statements : List Source.Statement) :
    (ofStatements statements).exports = statements.flatMap Source.Statement.exports := by
  have key : ∀ facts : Facts, (statements.foldl addStatement facts).exports
      = facts.exports ++ statements.flatMap Source.Statement.exports := by
    induction statements with
    | nil => simp
    | cons statement rest ih =>
        intro facts
        rw [List.foldl_cons, ih, exports_addStatement, List.append_assoc, List.flatMap_cons]
  exact key {}

/-- **The imports of a source** are put together from its statements, in their order. -/
theorem imports_ofStatements (statements : List Source.Statement) :
    (ofStatements statements).imports
      = (statements.filterMap Source.Statement.import?).foldl
          (fun acc entry => appendTo entry.1 entry.2 acc) [] := by
  have key : ∀ facts : Facts, (statements.foldl addStatement facts).imports
      = (statements.filterMap Source.Statement.import?).foldl
          (fun acc entry => appendTo entry.1 entry.2 acc) facts.imports := by
    induction statements with
    | nil => exact fun facts => rfl
    | cons statement rest ih =>
        intro facts
        rw [List.foldl_cons, ih, imports_addStatement]
        cases himport : statement.import? with
        | none => rw [List.filterMap_cons_none himport]; rfl
        | some entry => rw [List.filterMap_cons_some himport]; rfl
  exact key {}

/-! ## Specifiers -/

/-- The specifiers that the facts list, in order of first mention. -/
def specifiers (facts : Facts) : List String := facts.imports.map (·.1)

end ModuleGraph.Facts
