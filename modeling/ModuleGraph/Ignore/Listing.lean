import ModuleGraph.Ignore.Layer

set_option autoImplicit false

/-! # Listing a directory

`Disk.listing` lists what is below a directory: every entry comes before its own entries,
ignored entries are left out together with all that is below them, and links are listed but
not followed. The root itself is never ignored and is followed when it is a link. Paths are
spelled with the root as it was given.
-/

namespace ModuleGraph

def Node.isDirectory : Node → Bool
  | .directory _ => true
  | .file _ | .link _ => false

mutual

/-- The paths of a node and of all that is below it. `layers` are the rules above it. -/
def listNode (disk : Disk) (layers : List Layer) (place : Place) (p : Path) :
    Node → List Path
  | .directory entries =>
    p :: listEntries disk (Layer.ofDirectory disk place :: layers) place p entries
  | .file _ | .link _ => [p]

/-- The paths of the entries of a directory and of all that is below them. `layers` are the
rules of the directory and above it. -/
def listEntries (disk : Disk) (layers : List Layer) (place : Place) (p : Path) :
    List (String × Node) → List Path
  | [] => []
  | (name, node) :: rest =>
    let here :=
      if isIgnored layers name node.isDirectory then []
      else
        listNode disk (layers.map (Layer.descend name)) (place ++ [name]) (p.join ⟨name⟩) node
    here ++ listEntries disk layers place p rest

end

/-- What is below a path, the path itself first. -/
def Disk.listing (disk : Disk) (root : Path) : List Path :=
  match disk.locate root with
  | .error _ => []
  | .ok place =>
    match disk.root.at? place with
    | none => []
    | some node => listNode disk (layersAbove disk place) place root node

end ModuleGraph
