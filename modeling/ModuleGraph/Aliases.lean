import ModuleGraph.Ignore.Listing

set_option autoImplicit false

/-! # Aliases from TypeScript settings

The files named `tsconfig.json` below a directory define aliases under
`compilerOptions.paths`. Their targets are read from `compilerOptions.baseUrl`, which is
read from the directory of the file. A `/*` at the end of an alias or of a target is
dropped. A file that cannot be used is passed over, and of two aliases with one name the
later one counts.
-/

namespace ModuleGraph

open Json

/-- The part of a line before its first pair of slashes. -/
def cutComment : List Char → List Char
  | '/' :: '/' :: _ => []
  | c :: rest => c :: cutComment rest
  | [] => []

/-- A text without its comments, which reach from a pair of slashes to the end of the
line. -/
def dropComments (text : String) : String :=
  "\n".intercalate ((textLines text).map fun line => String.ofList (cutComment line.toList))

/-- Drops `*/` from the start of a reversed text, as often as it is there. -/
def dropReversedWildcards : List Char → List Char
  | '*' :: '/' :: rest => dropReversedWildcards rest
  | cs => cs

/-- A text without any `/*` at its end. -/
def dropWildcards (text : String) : String :=
  String.ofList (dropReversedWildcards text.toList.reverse).reverse

def aliasTargets (base : Path) (targets : Value) : List String :=
  ((targets.items?).getD []).filterMap fun target =>
    target.text?.map fun t => (base.join ⟨dropWildcards t⟩).clean.text

/-- The aliases that the settings of a directory define, in their order. An alias without
any target is none. -/
def settingsAliases (directory : Path) (settings : Value) : List (String × List String) :=
  match settings.get? "compilerOptions" with
  | none => []
  | some options =>
    let baseUrl := ((options.get? "baseUrl").bind Value.text?).getD "."
    let base := directory.join ⟨baseUrl⟩
    (((options.get? "paths").bind Value.members?).getD []).filterMap fun (name, targets) =>
      match aliasTargets base targets with
      | [] => none
      | targets => some (dropWildcards name, targets)

def settingsName : String := "tsconfig.json"

/-- The aliases that one file defines, none if it cannot be used. -/
def Disk.aliasesOf (disk : Disk) (root file : Path) : List (String × List String) :=
  match disk.read file with
  | .error _ => []
  | .ok text =>
    match Value.parse (dropComments text) with
    | .error _ => []
    | .ok settings => settingsAliases (file.parent?.getD root) settings

def Disk.collectAliases (disk : Disk) (root : Path) : List (String × List String) :=
  let files := (disk.listing root).filter fun p => p.fileName? == some settingsName
  setKeys (files.flatMap (disk.aliasesOf root)) []

end ModuleGraph
