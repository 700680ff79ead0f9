set_option autoImplicit false

/-! # What a module imports and exports

`Facts` are all that the dependency graph needs to know about one module: the names it
exports and, for each specifier it imports from, the names it takes from there.
-/

namespace ModuleGraph

/-- The name under which a default export or import is listed. -/
def defaultName : String := "default"

/-- The name under which a whole module is listed. -/
def namespaceName : String := "*"

/-- The names a module exports, in order of declaration, and the names it takes from each
specifier, in order of first mention. -/
structure Facts where
  exports : List String := []
  imports : List (String × List String) := []
deriving DecidableEq, Repr, Inhabited

namespace Facts

/-- Appends names to the entry of a specifier, which is created at the end if missing. -/
def appendTo (specifier : String) (names : List String) :
    List (String × List String) → List (String × List String)
  | [] => [(specifier, names)]
  | (s, old) :: rest =>
    if s = specifier then (s, old ++ names) :: rest
    else (s, old) :: appendTo specifier names rest

/-- Records that `names` are taken from `specifier`; no name at all still records it. -/
def addImports (facts : Facts) (specifier : String) (names : List String) : Facts :=
  { facts with imports := appendTo specifier names facts.imports }

def addExports (facts : Facts) (names : List String) : Facts :=
  { facts with exports := facts.exports ++ names }

def isEmpty (facts : Facts) : Bool := facts.exports.isEmpty && facts.imports.isEmpty

end Facts

end ModuleGraph
