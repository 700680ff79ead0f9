import ModuleGraph.Resolve.Basic

set_option autoImplicit false

/-! # Aliases

The aliases of the options replace specifiers. A key that ends with `$` stands for itself
only, a key with a `*` for everything that fits it, and any other key for itself and for
what follows it behind a slash. The targets of a key are tried in their order; when some
were tried and none was found, the resolution has failed.
-/

namespace ModuleGraph

inductive AliasKey where
  | exact (name : String)
  | wildcard (before after : List Char)
  | start (name : String)
deriving DecidableEq, Repr, Inhabited

def AliasKey.ofText (key : String) : AliasKey :=
  match key.toList.reverse with
  | '$' :: rest => .exact (String.ofList rest.reverse)
  | _ =>
    let cs := key.toList
    if cs.contains '*' then
      .wildcard (cs.takeWhile (· != '*')) ((cs.dropWhile (· != '*')).drop 1)
    else .start key

def AliasKey.name (key : String) : String :=
  match AliasKey.ofText key with
  | .exact name => name
  | _ => key

/-- Replaces the first `*` of a text. -/
def fillStar (filling : List Char) : List Char → List Char
  | [] => []
  | c :: rest => if c = '*' then filling ++ rest else c :: fillStar filling rest

/-- Whether a target of an alias is already part of the request, and so would change
nothing. -/
def targetIsUsed (target request : String) : Bool :=
  match stripStart? target.toList request.toList with
  | some [] => true
  | some ('/' :: _) => true
  | _ => false

namespace Resolver

/-- The specifier that a target gives for a request, if the key fits. A target that is a
file takes nothing behind it. -/
def replacement? (r : Resolver) (key : AliasKey) (target request : String) : Option String :=
  match key with
  | .exact name => if name = request then some target else none
  | .wildcard before after =>
    ((stripStart? before request.toList).bind (stripEnd? after)).map fun middle =>
      String.ofList (fillStar middle target.toList)
  | .start name =>
    match stripName? name request with
    | none => none
    | some [] => some target
    | some tail =>
      let path := (Path.mk target).normalize
      let tail := tail.dropWhile isDivider
      if r.disk.isFile path then none
      else if tail = [] then some target
      else some (path.normalizeWith ⟨String.ofList tail⟩).text

/-- Tries the targets of an alias in their order. The answer tells also whether any was
tried. -/
def tryTargets (r : Resolver) (require : Require) (directory : Path) (key : AliasKey)
    (request : String) (tried : Bool) : List String → Resolving (Option Path × Bool)
  | [] => pure (none, tried)
  | target :: rest =>
    if targetIsUsed target request then tryTargets r require directory key request tried rest
    else
      match r.replacement? key target request with
      | none => tryTargets r require directory key request tried rest
      | some specifier => do
        let found ← tryCatch (some <$> require directory specifier) fun
          | .notFound _ | .aliasNotFound _ _ => pure none
          | e => throw e
        match found with
        | some p => pure (some p, true)
        | none => tryTargets r require directory key request true rest

/-- Resolves a specifier by the given aliases, if one of them fits. -/
def byAliases (r : Resolver) (require : Require) (directory : Path) (request : String) :
    List (String × List String) → Resolving (Option Path)
  | [] => pure none
  | (key, targets) :: rest => do
    let (found, tried) ←
      r.tryTargets require directory (AliasKey.ofText key) request false targets
    match found with
    | some p => pure (some p)
    | none =>
      if tried then throw (.aliasNotFound request (AliasKey.name key))
      else byAliases r require directory request rest

def byAlias (r : Resolver) (require : Require) (directory : Path) (request : String) :
    Resolving (Option Path) :=
  r.byAliases require directory request r.options.aliases

end Resolver

end ModuleGraph
