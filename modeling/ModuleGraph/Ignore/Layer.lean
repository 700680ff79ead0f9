import ModuleGraph.Disk.Basic
import ModuleGraph.Ignore.Rule

set_option autoImplicit false

/-! # Rules of several directories

Each directory on the way to an entry has a `Layer` of rules. The rules of `.ignore` files
always count. Those of `.gitignore` and of `.git/info/exclude` count inside a repository,
and only from the directory of the repository downwards. For each of the three kinds the
nearest directory that says something decides, and `.ignore` comes before `.gitignore`.
-/

namespace ModuleGraph

structure Layer where
  /-- The rules of `.ignore`. -/
  plain : IgnoreFile := {}
  /-- The rules of `.gitignore`. -/
  git : IgnoreFile := {}
  /-- The rules of `.git/info/exclude`. -/
  excluded : IgnoreFile := {}
  /-- Whether the directory is that of a repository. -/
  isRepository : Bool := false
  /-- The names from this directory down to the one that is looked at. -/
  way : List String := []
deriving Repr, Inhabited

namespace Layer

def files (directory : Place) : List Path :=
  [[".ignore"], [".gitignore"], [".git", "info", "exclude"]].map fun name =>
    Place.toPath (directory ++ name)

/-- The rules of a file, none if it cannot be read. -/
def readFile (disk : Disk) (p : Path) : IgnoreFile :=
  match disk.readBytes p with
  | .ok bytes => .ofBytes bytes
  | .error _ => {}

def ofDirectory (disk : Disk) (directory : Place) : Layer :=
  let file (name : List String) := readFile disk (Place.toPath (directory ++ name))
  { plain := file [".ignore"]
    git := file [".gitignore"]
    excluded := file [".git", "info", "exclude"]
    isRepository := disk.has (Place.toPath (directory ++ [".git"])) }

/-- The layer as seen from an entry of the directory that is looked at. -/
def descend (name : String) (layer : Layer) : Layer := { layer with way := layer.way ++ [name] }

/-- The path of an entry below the directory of the layer. -/
def pathTo (layer : Layer) (name : String) : Path :=
  Path.ofComponents ((layer.way ++ [name]).map Component.name)

end Layer

/-- The layers that belong to the repository of the innermost one. There are none outside
of repositories. -/
def repositoryLayers (layers : List Layer) : List Layer :=
  if layers.any (·.isRepository) then
    layers.takeWhile (!·.isRepository) ++ (layers.find? (·.isRepository)).toList
  else []

/-- What the layers, innermost first, say about an entry of the directory that is looked
at. -/
def layersVerdict? (layers : List Layer) (name : String) (isDirectory : Bool) :
    Option Verdict :=
  let ask (layers : List Layer) (file : Layer → IgnoreFile) : Option Verdict :=
    layers.findSome? fun layer => (file layer).verdict? (layer.pathTo name) isDirectory
  let repository := repositoryLayers layers
  ask layers (·.plain) <|> ask repository (·.git) <|> ask repository (·.excluded)

def isIgnored (layers : List Layer) (name : String) (isDirectory : Bool) : Bool :=
  layersVerdict? layers name isDirectory == some .ignore

/-- The layers of the directories above a place, innermost first, as seen from the place. -/
def layersAbove (disk : Disk) (place : Place) : List Layer :=
  ((List.range place.length).map fun depth =>
    { Layer.ofDirectory disk (place.take depth) with way := place.drop depth }).reverse

/-- The wording of the faults in the ignore files above a place, outermost first. -/
def faultsAbove (disk : Disk) (place : Place) : List String :=
  (List.range place.length).flatMap fun depth =>
    (Layer.files (place.take depth)).flatMap fun p => (Layer.readFile disk p).faultMessages p

end ModuleGraph
