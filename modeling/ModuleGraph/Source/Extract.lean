import ModuleGraph.Facts
import ModuleGraph.Source.Tree

set_option autoImplicit false

/-! # The facts of a parsed source

Only the statements at the top of a source count, and of these only what is left when the
types are gone: a statement adds the names it exports (`Statement.exports`) and at most one
specifier it imports from (`Statement.import?`). `Facts.ofStatements` collects both in the
order of the source.
-/

namespace ModuleGraph.Source

/-- The name that an item of an import takes from the module, unless it is only a type. -/
def ImportItem.name? : ImportItem → Option String
  | .default => some defaultName
  | .all => some namespaceName
  | .named imported typeOnly => if typeOnly then none else some imported

/-- The specifier and the names of an import. A list that holds nothing but types drops the
import; an empty list or none at all keeps it for its effects. -/
def ImportDeclaration.import? (d : ImportDeclaration) : Option (String × List String) :=
  if d.typeOnly then none
  else
    match d.items with
    | none => some (d.source, [])
    | some items =>
      let names := items.filterMap (·.name?)
      if names.isEmpty && !items.isEmpty then none else some (d.source, names)

/-- Whether a declaration is gone when the types are gone. -/
def Declaration.isErased (d : Declaration) : Bool :=
  d.ambient ||
    match d.kind with
    | .function _ hasBody => !hasBody
    | .class _ isAbstract => isAbstract
    | .bindings _ => false
    | .interface _ | .typeAlias _ | .enumeration _ | .scope | .importAlias _ => true

/-- The names that a declaration exports when it stands behind `export`. -/
def Declaration.exports (d : Declaration) : List String :=
  if d.isErased then []
  else
    match d.kind with
    | .function name _ | .class name _ => name.toList
    | .bindings patterns => patterns.flatMap (·.listedNames)
    | .interface _ | .typeAlias _ | .enumeration _ | .scope | .importAlias _ => []

/-- The items of an export list that are more than types. -/
def valueItems (items : List ExportItem) : List ExportItem :=
  items.filter fun item => !item.typeOnly

namespace Statement

/-- The names that a statement at the top of a source exports. -/
def exports : Statement → List String
  | .exportDefault _ => [defaultName]
  | .exportAll _ name typeOnly => if typeOnly then [] else [name.getD namespaceName]
  | .exportItems items _ typeOnly =>
    if typeOnly then [] else (valueItems items).map (·.exported)
  | .exportDeclaration d => d.exports
  | .importing _ | .exportAssignment | .exportNamespace | .declaration _ | .other _ => []

/-- The specifier that a statement at the top of a source imports from, with the names that
it takes. -/
def import? : Statement → Option (String × List String)
  | .importing d => d.import?
  | .exportAll source _ typeOnly => if typeOnly then none else some (source, [namespaceName])
  | .exportItems items (some source) typeOnly =>
    if typeOnly then none else some (source, (valueItems items).map (·.name))
  | .exportItems _ none _ | .exportDefault _ | .exportDeclaration _ | .exportAssignment
  | .exportNamespace | .declaration _ | .other _ => none

/-- Whether a statement makes its source a module. -/
def isModuleSyntax : Statement → Bool
  | .importing _ | .exportDefault _ | .exportAll _ _ _ | .exportItems _ _ _
  | .exportDeclaration _ | .exportAssignment | .exportNamespace => true
  | .declaration _ | .other _ => false

end Statement

end ModuleGraph.Source

namespace ModuleGraph.Facts

open Source

def addStatement (facts : Facts) (s : Statement) : Facts :=
  let facts := facts.addExports s.exports
  match s.import? with
  | none => facts
  | some (specifier, names) => facts.addImports specifier names

def ofStatements (statements : List Statement) : Facts :=
  statements.foldl addStatement {}

end ModuleGraph.Facts
