import ModuleGraph.CommandLine.Run

set_option autoImplicit false

/-! # Where a run looks

A run of the command line sees a small part of a disk only. `lookups` lists the directories
in which it looks, as far as the known part of the disk tells, so that a disk can be read
piece by piece: what a run asks of one part leads to the next.
-/

namespace ModuleGraph

structure Lookup where
  path : Path
  /-- Whether all that is below the path is looked at too. -/
  deep : Bool := false
deriving DecidableEq, Repr, Inhabited

/-- Where the answer to a question of a walk is looked for. A specifier may name a file, a
directory, or a package in a directory of packages further up. -/
def Event.lookups (options : ResolveOptions) : Event → List Lookup
  | .read file => [⟨file.directory, false⟩]
  | .resolve specifier directory =>
    let target := (directory.join ⟨specifier⟩).clean
    let packages := directory.ancestors.flatMap fun above =>
      options.modules.map fun name => (above.join ⟨name⟩).join ⟨(splitPackage specifier).1⟩
    (target.directory :: target :: packages).map fun p => ⟨p, false⟩

namespace Arguments

def optionLookups (a : Arguments) (disk : Disk) : List Lookup :=
  let configured := match a.config with
    | none => []
    | some p =>
      match disk.loadOptions p with
      | .error _ => []
      | .ok o => o.files
  a.config.toList.map (⟨·, false⟩) ++
    (a.aliasRoot.toList ++ a.files ++ configured).map (⟨·, true⟩)

def walkLookups (a : Arguments) (disk : Disk) : List Lookup :=
  match a.options disk with
  | .error _ => []
  | .ok o =>
    let aliases := o.resolveOptions.aliases.flatMap fun entry =>
      entry.2.flatMap fun target => [⟨Path.directory ⟨target⟩, false⟩, ⟨⟨target⟩, false⟩]
    match disk.run? o with
    | .ok (some run) => aliases ++ run.events.flatMap (Event.lookups o.resolveOptions)
    | _ => aliases

end Arguments

/-- Where a run of the command line looks, read from the working directory. -/
def lookups (disk : Disk) (arguments : List String) : List Lookup :=
  match Arguments.parse? arguments with
  | none => []
  | some a =>
    (a.optionLookups disk ++ a.walkLookups disk).map fun l =>
      { l with path := disk.cwdPath.join l.path }

end ModuleGraph
