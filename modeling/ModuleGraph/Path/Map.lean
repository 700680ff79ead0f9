import ModuleGraph.Path.Basic

set_option autoImplicit false

/-! # Maps and sets of paths

A `PathMap` lists its entries in path order with no two keys alike, where keys are alike
when they have the same components. A key keeps the spelling under which it first came in.
The same holds of the path sets, which are plain ascending lists, and of `insertName` for
sets of names in order of their characters.
-/

namespace ModuleGraph

/-- Values by path, in path order. -/
abbrev PathMap (α : Type) := List (Path × α)

namespace PathMap

variable {α : Type}

/-- Changes the value at a path, given the old one if there is any. -/
def alter (m : PathMap α) (p : Path) (f : Option α → α) : PathMap α :=
  match m with
  | [] => [(p, f none)]
  | (q, a) :: rest =>
    match p.compare q with
    | .lt => (p, f none) :: (q, a) :: rest
    | .eq => (q, f (some a)) :: rest
    | .gt => (q, a) :: alter rest p f

def insert (m : PathMap α) (p : Path) (a : α) : PathMap α := m.alter p fun _ => a

def get? (m : PathMap α) (p : Path) : Option α :=
  (m.find? fun entry => entry.1.same p).map (·.2)

/-- The map that is built by setting one entry after the other. -/
def ofList (entries : List (Path × α)) : PathMap α :=
  entries.foldl (fun m entry => insert m entry.1 entry.2) []

end PathMap

abbrev PathSet := List Path

namespace PathSet

/-- Whether a path is in the set, under any spelling. -/
def has (s : PathSet) (p : Path) : Bool := s.any (·.same p)

def insert (s : PathSet) (p : Path) : PathSet :=
  match s with
  | [] => [p]
  | q :: rest =>
    match p.compare q with
    | .lt => p :: q :: rest
    | .eq => q :: rest
    | .gt => q :: insert rest p

def ofList (ps : List Path) : PathSet := ps.foldl insert []

end PathSet

def insertName (name : String) : List String → List String
  | [] => [name]
  | n :: rest =>
    if name < n then name :: n :: rest
    else if name = n then n :: rest
    else n :: insertName name rest

def insertNames (names : List String) (set : List String) : List String :=
  names.foldl (fun acc name => insertName name acc) set

/-- Sorts names by their characters and keeps repetitions. -/
def sortNames (names : List String) : List String :=
  names.mergeSort fun a b => decide (a ≤ b)

end ModuleGraph
