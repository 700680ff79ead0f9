import ModuleGraph.Options

set_option autoImplicit false

/-! # Arguments of the command line

Arguments that start with two hyphens are flags. Some flags stand alone; others take a
value, behind a `=` or as the next argument. All other arguments are files, and so is
everything behind `--`.
-/

namespace ModuleGraph

structure Arguments where
  files : List Path := []
  noRecurse : Bool := false
  exclude : List String := []
  config : Option Path := none
  format : Option OutputMode := none
  script : Bool := false
  noJsx : Bool := false
  extensions : List String := []
  strictExtensions : List String := []
  /-- The directory that is searched for aliases. -/
  aliasRoot : Option Path := none
  compact : Bool := false
deriving DecidableEq, Repr, Inhabited

namespace Arguments

/-- Adds a file; an empty name is none. -/
def addFile? (a : Arguments) (name : String) : Option Arguments :=
  if name.isEmpty then none else some { a with files := a.files ++ [⟨name⟩] }

/-- Sets a flag that stands alone, unless it is unknown or was set before. -/
def setSwitch? (a : Arguments) (name : String) : Option Arguments :=
  let once (isSet : Bool) (a : Arguments) : Option Arguments := if isSet then none else some a
  match name with
  | "no-recurse" => once a.noRecurse { a with noRecurse := true }
  | "script" => once a.script { a with script := true }
  | "no-jsx" => once a.noJsx { a with noJsx := true }
  | "compact" => once a.compact { a with compact := true }
  | _ => none

def valueFlags : List String :=
  ["exclude", "config", "format", "extension", "strict-extension", "tsconfig-root"]

def formatOf? : String → Option OutputMode
  | "full" => some .full
  | "dependencies" => some .dependencies
  | _ => none

/-- Sets a flag that takes a value, unless it is unknown, takes no such value, or takes only
one and was set before. -/
def setValue? (a : Arguments) (name value : String) : Option Arguments :=
  match name with
  | "exclude" => some { a with exclude := a.exclude ++ [value] }
  | "extension" => some { a with extensions := a.extensions ++ [value] }
  | "strict-extension" => some { a with strictExtensions := a.strictExtensions ++ [value] }
  | "config" =>
    if a.config.isSome || value.isEmpty then none else some { a with config := some ⟨value⟩ }
  | "tsconfig-root" =>
    if a.aliasRoot.isSome || value.isEmpty then none
    else some { a with aliasRoot := some ⟨value⟩ }
  | "format" =>
    if a.format.isSome then none
    else (formatOf? value).map fun mode => { a with format := some mode }
  | _ => none

/-- Whether an argument looks like a flag. A lone hyphen does not. -/
def looksLikeFlag (argument : String) : Bool :=
  match argument.toList with
  | '-' :: _ :: _ => true
  | _ => false

/-- The name of a flag and the value behind its `=`; `none` for an argument that does not
start with two hyphens. -/
def splitFlag? (argument : String) : Option (String × Option String) :=
  match argument.toList with
  | '-' :: '-' :: cs =>
    let name := String.ofList (cs.takeWhile (· != '='))
    match cs.dropWhile (· != '=') with
    | _ :: value => some (name, some (String.ofList value))
    | [] => some (name, none)
  | _ => none

/-- Reads arguments on top of those that were read before; there is no answer where they are
wrong. -/
def parseFrom (a : Arguments) : List String → Option Arguments
  | [] => some a
  | argument :: rest =>
    if argument = "--" then rest.foldlM addFile? a
    else
      match splitFlag? argument with
      | some (name, some value) => (a.setValue? name value).bind fun a => parseFrom a rest
      | some (name, none) =>
        if valueFlags.contains name then
          match rest with
          | [] => none
          | value :: rest =>
            if looksLikeFlag value then none
            else (a.setValue? name value).bind fun a => parseFrom a rest
        else (a.setSwitch? name).bind fun a => parseFrom a rest
      | none =>
        if looksLikeFlag argument then none
        else (a.addFile? argument).bind fun a => parseFrom a rest

def parse? (arguments : List String) : Option Arguments := parseFrom {} arguments

end Arguments

end ModuleGraph
