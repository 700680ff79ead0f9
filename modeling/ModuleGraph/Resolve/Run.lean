import ModuleGraph.Resolve.Exports

set_option autoImplicit false

/-! # Resolving a specifier

An absolute or relative specifier names a path. One that starts with `#` is private to its
package. Any other is bare: a module that is built into the host, or one of a package, which
is looked for in the package around, by its own name, and in the module directories from the
importing directory upwards. Aliases come before all of this.

Main definition: `Resolver.resolve`.
-/

namespace ModuleGraph.Resolver

/-- A result, or else the error that a specifier leads nowhere. -/
def orNotFound (specifier : String) : Option Path → Resolving Path
  | some p => pure p
  | none => throw (.notFound specifier)

/-- The file behind the target of an export. -/
def targetFile (r : Resolver) (require : Require) (specifier : String) (p : Path) :
    Resolving Path := do
  orNotFound specifier (← r.asFileOrDirectory require p "")

/-- The directory that holds packages next to a directory, if it is there. -/
def moduleDirectory? (r : Resolver) (name : String) (directory : Path) : Option Path :=
  if name != "node_modules" && directory.fileName? == some name then some directory
  else
    let p := directory.join ⟨name⟩
    if r.disk.isDirectory p then some p else none

/-- All pairs of a name for module directories and a directory on the way up. -/
def modulePlaces (r : Resolver) (directory : Path) : List (String × Path) :=
  r.options.modules.flatMap fun name => directory.ancestors.map fun p => (name, p)

/-- The file that a package exports for the rest of a bare specifier; `none` if it has no
exports at all. -/
def packageExport (r : Resolver) (require : Require) (specifier subpath : String)
    (directory : Path) : Resolving (Option Path) := do
  match (← r.packageIn directory).bind (·.exports?) with
  | none => pure none
  | some exports =>
    let p ← exportedFile directory r.options.conditionNames exports ("." ++ subpath)
    some <$> r.targetFile require specifier p

/-- Looks for a bare specifier in one module directory. -/
def inModuleDirectory (r : Resolver) (require : Require) (specifier : String)
    (place : String × Path) : Resolving (Option Path) := do
  let (name, above) := place
  let directory? := if r.disk.isDirectory above then r.moduleDirectory? name above else none
  match directory? with
  | none => pure none
  | some directory =>
    let (package, subpath) := splitPackage specifier
    let packageDirectory := directory.normalizeWith ⟨package⟩
    let tryPath : Resolving (Option Path) :=
      r.asFileOrDirectory require (directory.normalizeWith ⟨specifier⟩) specifier
    if package.isEmpty then tryPath
    else if r.disk.isDirectory packageDirectory then
      match ← r.packageExport require specifier subpath packageDirectory with
      | some p => pure (some p)
      | none => tryPath
    else if !subpath.isEmpty then pure none
    else
      let scopeIsThere := match packageDirectory.parent? with
        | some scope => r.disk.isDirectory scope
        | none => true
      if package.toList.head? == some '@' && !scopeIsThere then pure none else tryPath

/-- Looks for a bare specifier in the package around, by the name of that package. -/
def inOwnPackage (r : Resolver) (require : Require) (directory : Path) (specifier : String) :
    Resolving (Option Path) := do
  match ← r.packageAround directory with
  | none => pure none
  | some package =>
    match package.exports?, package.name?.bind fun name => stripName? name specifier with
    | some exports, some tail =>
      let subpath := "." ++ String.ofList tail
      let p ← exportedFile package.directory r.options.conditionNames exports subpath
      some <$> r.targetFile require specifier p
    | _, _ => pure none

def requireBare (r : Resolver) (require : Require) (directory : Path) (specifier : String) :
    Resolving Path := do
  match ← r.inOwnPackage require directory specifier with
  | some p => pure p
  | none =>
    let found ← firstResult (r.inModuleDirectory require specifier) (r.modulePlaces directory)
    orNotFound specifier found

/-- Resolves a package that the private imports of another package name. -/
def requirePackage (r : Resolver) (require : Require) (directory : Path) (specifier : String) :
    Resolving Path := do
  let (name, subpath) := splitPackage specifier
  if isBuiltin name then throw .builtin
  let directories := (r.modulePlaces directory).filterMap fun (modules, above) =>
    (r.moduleDirectory? modules above).map fun p => p.normalizeWith ⟨name⟩
  match directories.find? r.disk.isDirectory with
  | none => throw (.notFound specifier)
  | some package =>
    match (← r.packageIn package).bind (·.exports?) with
    | some exports => exportedFile package r.options.conditionNames exports ("." ++ subpath)
    | none => require package ("." ++ subpath)

def requirePrivate (r : Resolver) (require : Require) (directory : Path) (specifier : String) :
    Resolving Path := do
  match ← r.packageAround directory with
  | none => r.requireBare require directory specifier
  | some package =>
    match package.imports? with
    | none => r.requireBare require directory specifier
    | some imports =>
      if specifier == "#" then throw (.invalidSubpath specifier package.description)
      let other := r.requirePackage require package.directory
      let target ←
        mappedTarget package.directory r.options.conditionNames (some other) specifier imports
      match target with
      | some p => r.targetFile require specifier p
      | none => throw (.importNotDefined specifier package.description)

def requireRelative (r : Resolver) (require : Require) (directory : Path)
    (specifier : String) : Resolving Path := do
  let p := directory.normalizeWith ⟨specifier⟩
  let asked := if specifier == "." then "./" else specifier
  orNotFound specifier (← r.asFileOrDirectory require p asked)

/-- Resolves a specifier without query and fragment. -/
def requirePath (r : Resolver) (require : Require) (directory : Path) (specifier : String) :
    Resolving Path := do
  match ← r.byAlias require directory specifier with
  | some p => pure p
  | none =>
    match (Path.mk specifier).components.head? with
    | some .root => orNotFound specifier (← r.asFileOrDirectory require ⟨specifier⟩ specifier)
    | some .here | some .up => r.requireRelative require directory specifier
    | _ =>
      if specifier.toList.head? == some '#' then r.requirePrivate require directory specifier
      else if isBuiltin specifier then throw .builtin
      else r.requireBare require directory specifier

def countRequest : Resolving Unit := do
  modify fun s => { s with requests := s.requests + 1 }
  if requestLimit < (← get).requests then throw .recursion

/-- One request: what looks like a fragment is first taken for a part of the path. -/
def requestStep (r : Resolver) (require : Require) (directory : Path) (specifier : String) :
    Resolving Path := do
  countRequest
  match Specifier.parse? specifier with
  | none => throw (.emptySpecifier specifier)
  | some parsed =>
    modify fun s =>
      { s with query := parsed.query <|> s.query, fragment := parsed.fragment <|> s.fragment }
    let s ← get
    match s.query, s.fragment with
    | none, some fragment =>
      set { s with fragment := none }
      match ← succeeded? (r.requirePath require directory (parsed.path ++ fragment)) with
      | some p => pure p
      | none =>
        modify fun s => { s with fragment := some fragment }
        r.requirePath require directory parsed.path
    | _, _ => r.requirePath require directory parsed.path

/-- A request that may lead to the given number of others, one inside the other. -/
def request (r : Resolver) : Nat → Require
  | 0 => fun _ _ => throw .recursion
  | depth + 1 => r.requestStep (r.request depth)

/-- Where a specifier leads from a directory, with all links resolved, or why it leads
nowhere. A module that is built into the host keeps its specifier. -/
def resolve (r : Resolver) (specifier : String) (directory : Path) : Except String Path :=
  match (r.request (requestLimit + 1) directory specifier).run {} with
  | (.ok p, _) => .ok ((r.disk.canonical? p).getD p)
  | (.error .builtin, _) => .ok ⟨specifier⟩
  | (.error e, _) => .error e.message

end ModuleGraph.Resolver
