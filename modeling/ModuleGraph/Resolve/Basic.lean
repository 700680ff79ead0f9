import ModuleGraph.Disk.Basic
import ModuleGraph.Resolve.Error
import ModuleGraph.Resolve.Specifier

set_option autoImplicit false

/-! # Resolving: the common ground

Resolving a specifier may mean to resolve others on the way, for an alias or a package. All
of this is one resolution, with a limit on its requests and with the query and the fragment
that were met last (`Resolution`). What is kept of these outlives an error that is handled.

The rules for one request are written in terms of `Require`, the rules for the requests
that it makes; `Resolve.Run` ties them together.
-/

namespace ModuleGraph

structure Resolution where
  query : Option String := none
  fragment : Option String := none
  requests : Nat := 0
deriving DecidableEq, Repr, Inhabited

abbrev Resolving := ExceptT ResolveError (StateM Resolution)

structure Resolver where
  disk : Disk
  options : ResolveOptions

/-- Resolves a specifier from a directory. -/
abbrev Require := Path → String → Resolving Path

def requestLimit : Nat := 64

/-- The first result that one of several items gives. -/
def firstResult {α β : Type} (f : α → Resolving (Option β)) : List α → Resolving (Option β)
  | [] => pure none
  | a :: rest => do
    match ← f a with
    | some b => pure (some b)
    | none => firstResult f rest

/-- A result if there is one, and nothing when the resolution went wrong. -/
def succeeded? {α : Type} (p : Resolving α) : Resolving (Option α) :=
  tryCatch (some <$> p) fun _ => pure none

end ModuleGraph
