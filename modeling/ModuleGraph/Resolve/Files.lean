import ModuleGraph.Resolve.Alias
import ModuleGraph.Resolve.Package

set_option autoImplicit false

/-! # Files and directories behind a path

A path may leave out the extension of a file, or name a directory that stands for its entry
file. The entry file of a directory is one that its package description names, or else
`index` with some extension.
-/

namespace ModuleGraph.Resolver

def indexName : String := "index"

/-- Whether a file is tried under the path itself. Where the empty extension is in the
list, that is done in its turn. -/
def triesPlain (r : Resolver) : Bool := !r.options.extensions.contains ""

/-- The file at a path. An alias for the path comes before the file. -/
def exactFile (r : Resolver) (require : Require) (p : Path) : Resolving (Option Path) := do
  match ← r.byAlias require p p.text with
  | some q => pure (some q)
  | none => pure (if r.disk.isFile p then some p else none)

def withExtension (r : Resolver) (require : Require) (p : Path) : Resolving (Option Path) :=
  firstResult (fun extension => r.exactFile require ⟨p.text ++ extension⟩) r.options.extensions

/-- The file at a path, where an extension may be left out. -/
def asFile (r : Resolver) (require : Require) (p : Path) : Resolving (Option Path) := do
  let plain ← if r.triesPlain then r.exactFile require p else pure none
  match plain with
  | some q => pure (some q)
  | none => r.withExtension require p

def asIndex (r : Resolver) (require : Require) (p : Path) : Resolving (Option Path) :=
  r.asFile require (p.normalizeWith ⟨indexName⟩)

/-- The entry file that a package description names. -/
def asMain (r : Resolver) (require : Require) (directory : Path) (main : String) :
    Resolving (Option Path) := do
  let cs := main.toList
  let isRelative := "./".toList.isPrefixOf cs || "../".toList.isPrefixOf cs
  let p := directory.normalizeWith ⟨if isRelative then main else "./" ++ main⟩
  match ← r.asFile require p with
  | some q => pure (some q)
  | none => r.asIndex require p

def asDirectory (r : Resolver) (require : Require) (p : Path) : Resolving (Option Path) := do
  let mains := match ← r.packageIn p with
    | some package => package.mains r.options.mainFields
    | none => []
  match ← firstResult (r.asMain require p) mains with
  | some q => pure (some q)
  | none => r.asIndex require p

/-- The file that a path stands for. A specifier that ends with a slash stands for a
directory. -/
def asFileOrDirectory (r : Resolver) (require : Require) (p : Path) (specifier : String) :
    Resolving (Option Path) := do
  let isDirectory := specifier.toList.getLast? == some '/'
  let file ← if isDirectory then pure none else r.asFile require p
  match file with
  | some q => pure (some q)
  | none => if r.disk.isDirectory p then r.asDirectory require p else pure none

end ModuleGraph.Resolver
