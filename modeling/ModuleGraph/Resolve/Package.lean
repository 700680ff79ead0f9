import ModuleGraph.Resolve.Basic

set_option autoImplicit false

/-! # Package descriptions

A package is a directory with a description: a JSON file that may give the package a name,
entry files, exports and private imports.
-/

namespace ModuleGraph

open Json

structure Package where
  /-- The path of the description. -/
  description : Path
  /-- The directory of the description, without links. -/
  directory : Path
  content : Value

namespace Package

def name? (p : Package) : Option String := (p.content.get? "name").bind Value.text?

/-- What a package exports; `null` counts. -/
def exports? (p : Package) : Option Value := p.content.get? "exports"

/-- The private specifiers of a package, if it has any. -/
def imports? (p : Package) : Option (List (String × Value)) :=
  (p.content.get? "imports").bind Value.members?

/-- The entry files that a package names under the given fields. -/
def mains (p : Package) (fields : List String) : List String :=
  fields.filterMap fun field => (p.content.get? field).bind Value.text?

end Package

/-- The text of some bytes, without a byte order mark. -/
def decodeText? (bytes : ByteArray) : Option String :=
  (String.fromUTF8? bytes).map fun text =>
    match text.toList with
    | '\uFEFF' :: rest => String.ofList rest
    | _ => text

namespace Resolver

/-- The package in a directory, if there is a description in it. -/
def packageIn (r : Resolver) (directory : Path) : Resolving (Option Package) :=
  let path := descriptionOf directory
  match r.disk.readBytes path with
  | .error _ => pure none
  | .ok bytes =>
    match (decodeText? bytes).map Value.parse with
    | some (.ok content) =>
      let real := (r.disk.canonical? path).getD path
      pure (some ⟨path, real.parent?.getD directory, content⟩)
    | _ => throw (.malformedPackage path)

/-- The innermost package around a directory. -/
def packageAround (r : Resolver) (directory : Path) : Resolving (Option Package) :=
  -- What is not there is passed over, up to the first directory.
  firstResult r.packageIn (directory.ancestors.dropWhile fun p => !r.disk.isDirectory p)

end Resolver

end ModuleGraph
