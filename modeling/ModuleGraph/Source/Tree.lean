set_option autoImplicit false

/-! # What is kept of a parsed source

Of statements, the tree keeps imports, exports and the names that declarations bind. Of
expressions it keeps only the shape that decides whether something can be assigned to
(`Expr`), because nothing in an expression is imported or exported.

Main definitions: `Expr`, `Pattern`, `Declaration`, `Statement`.
-/

namespace ModuleGraph.Source

/-- The shape of an expression, as far as assignments care for it. The members of arrays and
objects (`hole`, `spread`, `field`, `shorthand`, `method`) are shapes of their own. -/
inductive Expr where
  | name (text : String)
  /-- Access to a member, as in `a.b` or `a[b]`. -/
  | member
  /-- A chain with a `?.` in it. -/
  | chain
  /-- An expression in parentheses. -/
  | group (inner : Expr)
  | array (items : List Expr) (trailingComma : Bool)
  | object (members : List Expr) (trailingComma : Bool)
  /-- An assignment, plain when its operator is `=`. -/
  | assign (plain : Bool) (target : Expr)
  /-- A logical operation, by whether its operator is `??`. -/
  | logical (coalescing : Bool)
  /-- A prefix operator with its operand. -/
  | unary
  /-- A test for a private name, as in `#a in b`. -/
  | privateTest
  /-- A type operation that leaves the value alone, as in `a as T` or `a!`. -/
  | cast (inner : Expr)
  /-- An expression with type arguments that is not called. -/
  | instantiated (inner : Expr)
  /-- A dynamic import. -/
  | importCall
  /-- A missing item of an array. -/
  | hole
  | spread (inner : Expr)
  /-- A member of an object with its value. -/
  | field (value : Expr)
  /-- A member that is only a name; `loose` is the place of a default value, which has a
  meaning only when the object turns out to be assigned to. -/
  | shorthand (name : String) (loose : Option Nat)
  | method
  | other
deriving Repr, Inhabited

/-- A name, or a structure of names, that a declaration binds. -/
inductive Pattern where
  | name (text : String)
  /-- The values under the keys of an object; a key is kept unless it is computed. -/
  | object (fields : List (Option String × Pattern)) (rest : Option Pattern)
  /-- The items of an array, some of which are skipped. -/
  | array (items : List (Option Pattern)) (rest : Option Pattern)
  /-- A pattern with a default value. -/
  | withDefault (target : Pattern) (value : Expr)
deriving Repr, Inhabited

inductive ImportItem where
  /-- The default export. -/
  | default
  /-- The module as a whole. -/
  | all
  /-- The export of the given name, perhaps for its type only. -/
  | named (imported : String) (typeOnly : Bool)
deriving DecidableEq, Repr, Inhabited

/-- An import declaration; without a list of items only the module's effects count. -/
structure ImportDeclaration where
  source : String
  typeOnly : Bool
  items : Option (List ImportItem)
deriving DecidableEq, Repr, Inhabited

/-- An item of an export list: the name inside, and the name under which it is exported. -/
structure ExportItem where
  name : String
  exported : String
  typeOnly : Bool
deriving DecidableEq, Repr, Inhabited

inductive DeclarationKind where
  | function (name : Option String) (hasBody : Bool)
  | class (name : Option String) (isAbstract : Bool)
  | bindings (patterns : List Pattern)
  | interface (name : String)
  | typeAlias (name : String)
  | enumeration (name : String)
  /-- A block of declarations under a name. -/
  | scope
  /-- A name for another module or a part of one. -/
  | importAlias (name : String)
deriving Repr, Inhabited

/-- A declaration; an ambient one tells about a thing that exists elsewhere. -/
structure Declaration where
  kind : DeclarationKind
  ambient : Bool
deriving Repr, Inhabited

inductive DefaultExport where
  | functionDefinition
  | classDefinition
  | interfaceDefinition
  | value
deriving DecidableEq, Repr, Inhabited

inductive Statement where
  | importing (declaration : ImportDeclaration)
  | exportDefault (kind : DefaultExport)
  | exportAll (source : String) (name : Option String) (typeOnly : Bool)
  | exportItems (items : List ExportItem) (source : Option String) (typeOnly : Bool)
  | exportDeclaration (declaration : Declaration)
  /-- The export of one value as the whole module. -/
  | exportAssignment
  /-- The export of the module under a global name. -/
  | exportNamespace
  /-- A declaration that is not exported. -/
  | declaration (declaration : Declaration)
  /-- Any other statement, with the statements that are directly inside it. -/
  | other (inner : List Statement)
deriving Repr, Inhabited

namespace Pattern

mutual

/-- The names a pattern binds, in the order of the source. -/
def boundNames : Pattern → List String
  | .name text => [text]
  | .object fields rest => fieldsBoundNames fields ++ restBoundNames rest
  | .array items rest => itemsBoundNames items ++ restBoundNames rest
  | .withDefault target _ => target.boundNames

def fieldsBoundNames : List (Option String × Pattern) → List String
  | [] => []
  | (_, p) :: more => p.boundNames ++ fieldsBoundNames more

def itemsBoundNames : List (Option Pattern) → List String
  | [] => []
  | none :: more => itemsBoundNames more
  | some p :: more => p.boundNames ++ itemsBoundNames more

def restBoundNames : Option Pattern → List String
  | none => []
  | some p => p.boundNames

end

mutual

/-- The names a pattern lists as exports: all it binds, except in rest elements. -/
def listedNames : Pattern → List String
  | .name text => [text]
  | .object fields _ => fieldsListedNames fields
  | .array items _ => itemsListedNames items
  | .withDefault target _ => target.listedNames

def fieldsListedNames : List (Option String × Pattern) → List String
  | [] => []
  | (_, p) :: more => p.listedNames ++ fieldsListedNames more

def itemsListedNames : List (Option Pattern) → List String
  | [] => []
  | none :: more => itemsListedNames more
  | some p :: more => p.listedNames ++ itemsListedNames more

end

/-- Whether the pattern is a structure that a declaration must give a value to. -/
def isStructure : Pattern → Bool
  | .name _ => false
  | .object _ _ | .array _ _ => true
  | .withDefault target _ => target.isStructure

end Pattern

namespace Expr

/-! ## Assignment targets

`target?` and `simpleTarget?` decide whether an expression can be assigned to. The answer
lists the places of the defaults that get their meaning by the assignment. -/

/-- Whether an expression under type operations can be assigned to. -/
def isPlace : Expr → Bool
  | .name _ | .member => true
  | .group inner | .cast inner => inner.isPlace
  | _ => false

/-- Whether an expression can be assigned a single value. -/
def isSimpleTarget : Expr → Bool
  | .name _ | .member => true
  | .group inner => inner.isSimpleTarget
  | .cast inner => inner.isPlace
  | _ => false

mutual

/-- Whether an expression can be assigned a value that is taken apart. -/
def target? : Expr → Option (List Nat)
  | .array items comma => itemTargets? comma items
  | .object members comma => memberTargets? comma members
  | e => if e.isSimpleTarget then some [] else none

/-- A target that may have a default. -/
def defaultedTarget? : Expr → Option (List Nat)
  | .assign true _ => some []
  | .assign false _ => none
  | e => target? e

/-- The items of an array that is assigned to. A spread item comes last, without a comma. -/
def itemTargets? (comma : Bool) : List Expr → Option (List Nat)
  | [] => some []
  | [.spread inner] => if comma then none else target? inner
  | .spread _ :: _ => none
  | .hole :: more => itemTargets? comma more
  | e :: more => do
    let here ← defaultedTarget? e
    let there ← itemTargets? comma more
    pure (here ++ there)

/-- The members of an object that is assigned to. A spread member comes last, and is not
taken apart itself. -/
def memberTargets? (comma : Bool) : List Expr → Option (List Nat)
  | [] => some []
  | [.spread inner] => if inner.isSimpleTarget && !comma then some [] else none
  | .shorthand _ loose :: more => do
    let there ← memberTargets? comma more
    pure (loose.toList ++ there)
  | .field value :: more => do
    let here ← defaultedTarget? value
    let there ← memberTargets? comma more
    pure (here ++ there)
  | _ :: _ => none

end

end Expr

end ModuleGraph.Source
