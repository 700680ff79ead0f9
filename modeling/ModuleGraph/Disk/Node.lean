import ModuleGraph.Options

set_option autoImplicit false

/-! # Files and directories

A `Node` is a file with its bytes, a directory with its entries in order of their names, or
a symbolic link. A place in a directory tree is the list of names that leads there from the
top (`Place`).
-/

namespace ModuleGraph

inductive Node where
  | file (bytes : ByteArray)
  | directory (entries : List (String × Node))
  | link (target : Path)
deriving Inhabited

/-- The names on the way from the top of a tree. -/
abbrev Place := List String

def Place.toPath (place : Place) : Path :=
  Path.ofComponents (.root :: place.map Component.name)

namespace Node

/-- The entries of a node; only a directory has any. -/
def entries : Node → List (String × Node)
  | .directory entries => entries
  | .file _ | .link _ => []

/-- The node at a place, with no link on the way. -/
def at? (node : Node) : Place → Option Node
  | [] => some node
  | name :: rest =>
    match node.entries.lookup name with
    | some child => child.at? rest
    | none => none

/-- Puts a node at a place and creates the directories on the way. A directory that is
already there keeps its entries when an empty one is put in its place. -/
def put (new old : Node) : Place → Node
  | [] =>
    match new, old with
    | .directory [], .directory entries => .directory entries
    | _, _ => new
  | name :: rest =>
    let child := (old.entries.lookup name).getD (.directory [])
    .directory (setKey name (put new child rest) old.entries)

def remove (node : Node) : Place → Node
  | [] => node
  | [name] => .directory (node.entries.filter fun entry => entry.1 != name)
  | name :: rest =>
    match node.entries.lookup name with
    | some child => .directory (setKey name (child.remove rest) node.entries)
    | none => node

mutual

def fileCount : Node → Nat
  | .file _ => 1
  | .directory entries => fileCountOf entries
  | .link _ => 0

def fileCountOf : List (String × Node) → Nat
  | [] => 0
  | (_, node) :: rest => node.fileCount + fileCountOf rest

end

end Node

end ModuleGraph
