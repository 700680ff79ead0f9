import ModuleGraph.Resolve.Builtin
import ModuleGraph.Resolve.Files

set_option autoImplicit false

/-! # Exports and imports of packages

The exports of a package map subpaths to files, and its imports map private specifiers to
files or to other packages. A target may depend on conditions, which are tried in the order
in which the package lists them; of the keys with a `*` the most specific one counts.
-/

namespace ModuleGraph

open Json

/-- Whether a target leaves its package or enters a library inside of it. -/
def isInvalidTarget (target : String) : Bool :=
  let cs := (Path.mk target).components
  let isBad : Component → Bool
    | .up => true
    | .name s => s.map Char.toLower == "node_modules"
    | .root | .here => false
  cs.any isBad

/-- The length of a key up to its `*`, and of the whole key if there is none. -/
def baseLength (key : List Char) : Nat :=
  if key.contains '*' then (key.takeWhile (· != '*')).length + 1 else key.length

/-- Whether a key is more specific than another one: its part before the `*` is longer, or
it has a `*` and the other has none where those are equal, or it is longer as a whole. -/
def isMoreSpecific (key best : List Char) : Bool :=
  if baseLength best != baseLength key then baseLength best < baseLength key
  else if !best.contains '*' then true
  else if !key.contains '*' then false
  else best.length < key.length

/-- What a key with a `*`, or one that names a directory, leaves open of a subpath. -/
def openPart? (key subpath : List Char) : Option (List Char) :=
  if !("./".toList.isPrefixOf key || "#".toList.isPrefixOf key) then none
  else if key.contains '*' then
    let before := key.takeWhile (· != '*')
    let after := (key.dropWhile (· != '*')).drop 1
    if after.contains '*' || (!after.isEmpty && subpath.length < key.length) then none
    else (stripStart? before subpath).bind (stripEnd? after)
  else if key.getLast? = some '/' then stripStart? key subpath
  else none

/-- The most specific key that fits a subpath, with its target and what it leaves open. -/
def bestMatch? (subpath : List Char) (best : Option (String × Value × List Char)) :
    List (String × Value) → Option (String × Value × List Char)
  | [] => best
  | (key, target) :: rest =>
    match openPart? key.toList subpath with
    | none => bestMatch? subpath best rest
    | some middle =>
      let better := match best with
        | none => true
        | some (other, _, _) => isMoreSpecific key.toList other.toList
      bestMatch? subpath (if better then some (key, target, middle) else best) rest

def fillStars (filling cs : List Char) : List Char :=
  cs.flatMap fun c => if c = '*' then filling else [c]

/-- A target with what its key leaves open filled in. -/
def fillTarget (package : Path) (key target : String) (middle : Option (List Char)) :
    Except ResolveError String :=
  match middle with
  | none => .ok target
  | some middle =>
    let cs := target.toList
    if key.toList.contains '*' || cs.contains '*' then .ok (String.ofList (fillStars middle cs))
    else if key.toList.getLast? = some '/' && cs.getLast? = some '/' then
      .ok (String.ofList (cs ++ middle))
    else .error (.notFolderMapping package)

structure TargetContext where
  /-- The directory of the package. -/
  package : Path
  key : String
  /-- What the key leaves open. -/
  middle : Option (List Char)
  conditions : List String
  /-- Resolves a target that is no file of the package, where that is allowed. -/
  other : Option (String → Resolving Path)

def textTarget (c : TargetContext) (target : String) : Resolving (Option Path) := do
  let cs := target.toList
  if "./".toList.isPrefixOf cs then
    let filled ← liftExcept (fillTarget c.package c.key target c.middle)
    if isInvalidTarget filled then throw (.invalidTarget filled c.key c.package)
    pure (some (c.package.normalizeWith ⟨filled⟩))
  else
    match c.other with
    | none => throw (.invalidTarget target c.key c.package)
    | some other =>
      if "../".toList.isPrefixOf cs || "/".toList.isPrefixOf cs then
        throw (.invalidTarget target c.key c.package)
      let filled ← liftExcept (fillTarget c.package c.key target c.middle)
      some <$> other filled
where
  /-- Takes up an error in the resolution. -/
  liftExcept {α : Type} : Except ResolveError α → Resolving α
    | .ok a => pure a
    | .error e => throw e

mutual

/-- The file that a target stands for, under the conditions. -/
def packageTarget (c : TargetContext) : Value → Resolving (Option Path)
  | .text target => textTarget c target
  | .object members => firstCondition c members
  | .array [] => throw (.notExported ((c.middle.map String.ofList).getD ".") c.package c.conditions)
  | .array items => firstTarget c items
  | .null | .bool _ | .number _ => pure none

/-- The first target whose condition holds and that stands for a file. -/
def firstCondition (c : TargetContext) : List (String × Value) → Resolving (Option Path)
  | [] => pure none
  | (condition, target) :: rest => do
    if condition == "default" || c.conditions.contains condition then
      match ← packageTarget c target with
      | some p => pure (some p)
      | none => firstCondition c rest
    else firstCondition c rest

/-- The first of several targets that stands for a file; a target that is invalid is passed
over. -/
def firstTarget (c : TargetContext) : List Value → Resolving (Option Path)
  | [] => pure none
  | target :: rest => do
    match ← succeeded? (packageTarget c target) with
    | some (some p) => pure (some p)
    | _ => firstTarget c rest

end

/-- The file that a subpath or a private specifier stands for in a map. -/
def mappedTarget (package : Path) (conditions : List String)
    (other : Option (String → Resolving Path)) (subpath : String)
    (members : List (String × Value)) : Resolving (Option Path) :=
  let cs := subpath.toList
  if cs.getLast? = some '/' then pure none
  else
    match (if cs.contains '*' then none else members.lookup subpath) with
    | some target => packageTarget ⟨package, subpath, none, conditions, other⟩ target
    | none =>
      match bestMatch? cs none members with
      | some (key, target, middle) =>
        packageTarget ⟨package, key, some middle, conditions, other⟩ target
      | none => pure none

/-- Whether the keys of an exports map mix subpaths and conditions. -/
def mixesKeys (members : List (String × Value)) : Bool :=
  let isSubpath (member : String × Value) : Bool :=
    match member.1.toList.head? with
    | some c => c == '.' || c == '#'
    | none => false
  members.any isSubpath && members.any fun member => !isSubpath member

/-- What a package exports as a whole. -/
def mainExport? : Value → Option Value
  | .object members =>
    match members.lookup "." with
    | some target => some target
    | none =>
      let isSubpath (member : String × Value) : Bool :=
        "./".toList.isPrefixOf member.1.toList || "#".toList.isPrefixOf member.1.toList
      if members.any isSubpath then none else some (.object members)
  | .text target => some (.text target)
  | .array items => some (.array items)
  | .null | .bool _ | .number _ => none

/-- The file that a package exports under a subpath, which starts with a dot. -/
def exportedFile (package : Path) (conditions : List String) (exports : Value)
    (subpath : String) : Resolving Path := do
  let members := exports.members?.getD []
  if mixesKeys members then throw (.mixedExports package)
  let main ←
    if subpath == "." then
      let s ← get
      if s.query.isSome || s.fragment.isSome then
        let asked := "./" ++ s.query.getD "" ++ s.fragment.getD ""
        throw (.notExported asked package conditions)
      match mainExport? exports with
      | some target => packageTarget ⟨package, ".", none, conditions, none⟩ target
      | none => pure none
    else pure none
  let found ← match main with
    | some p => pure (some p)
    | none => mappedTarget package conditions none subpath members
  match found with
  | some p => pure p
  | none => throw (.notExported subpath package conditions)

end ModuleGraph
