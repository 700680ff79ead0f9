import ModuleGraph.Disk.Node
import ModuleGraph.Error
import ModuleGraph.Path.Clean

set_option autoImplicit false

/-! # Disks

A `Disk` is a directory tree together with a working directory, from which relative paths
start. `Disk.locate` follows a path through the tree, link by link, and gives the place
where it ends; `Disk.read` gives the text that is there.
-/

namespace ModuleGraph

/-- A directory tree and the place of the working directory in it. -/
structure Disk where
  root : Node
  cwd : Place := []
deriving Inhabited

/-- Whether the last name of a path is followed when it is a link. -/
inductive LastLink where
  | follow
  | keep
deriving DecidableEq, Repr, Inhabited

def Path.pieces (p : Path) : List String := (splitSlash p.text.toList).map String.ofList

def linkLimit : Nat := 40

/-- Goes along the pieces of a path from a directory, up to the first link that has to be
followed, where `next` takes over. An empty piece or a `.` stays, but only a directory can
be stayed in. -/
def goWith (root : Node) (last : LastLink)
    (next : Place → List String → Except ReadError Place) (here : Place) :
    List String → Except ReadError Place
  | [] => .ok here
  | piece :: rest =>
    match root.at? here with
    | some (.directory entries) =>
      if piece = "" ∨ piece = "." then goWith root last next here rest
      else if piece = ".." then goWith root last next here.dropLast rest
      else
        match entries.lookup piece with
        | none => .error .notFound
        | some (.link target) =>
          if rest = [] ∧ last = .keep then .ok (here ++ [piece])
          else next (if target.isAbsolute then [] else here) (target.pieces ++ rest)
        | some _ => goWith root last next (here ++ [piece]) rest
    | some _ => .error .notDirectory
    | none => .error .notFound

/-- Goes along the pieces of a path, with a limit on the number of links. -/
def go (root : Node) (last : LastLink) : Nat → Place → List String → Except ReadError Place
  | 0 => goWith root last fun _ _ => .error .tooManyLinks
  | links + 1 => goWith root last (go root last links)

namespace Disk

/-- The place where a path ends, where a link at its end is followed or not. -/
def locateLast (disk : Disk) (last : LastLink) (p : Path) : Except ReadError Place :=
  if p.text = "" then .error .notFound
  else go disk.root last linkLimit (if p.isAbsolute then [] else disk.cwd) p.pieces

def locate (disk : Disk) (p : Path) : Except ReadError Place := disk.locateLast .follow p

def node? (disk : Disk) (p : Path) : Option Node :=
  match disk.locate p with
  | .ok place => disk.root.at? place
  | .error _ => none

def isFile (disk : Disk) (p : Path) : Bool :=
  match disk.node? p with
  | some (.file _) => true
  | _ => false

def isDirectory (disk : Disk) (p : Path) : Bool :=
  match disk.node? p with
  | some (.directory _) => true
  | _ => false

def has (disk : Disk) (p : Path) : Bool := (disk.node? p).isSome

def readBytes (disk : Disk) (p : Path) : Except ReadError ByteArray :=
  match disk.locate p with
  | .error e => .error e
  | .ok place =>
    match disk.root.at? place with
    | some (.file bytes) => .ok bytes
    | some _ => .error .isDirectory
    | none => .error .notFound

def read (disk : Disk) (p : Path) : Except ReadError String :=
  match disk.readBytes p with
  | .error e => .error e
  | .ok bytes =>
    match String.fromUTF8? bytes with
    | some text => .ok text
    | none => .error .notText

/-- The path without any link of the place where a path ends. -/
def canonical? (disk : Disk) (p : Path) : Option Path :=
  match disk.locate p with
  | .ok place => some place.toPath
  | .error _ => none

def cwdPath (disk : Disk) : Path := disk.cwd.toPath

/-- The disk with another working directory, if that is there. -/
def moveTo (disk : Disk) (p : Path) : Disk :=
  match disk.locate p with
  | .ok place => { disk with cwd := place }
  | .error _ => disk

/-! ## Changes -/

/-- The place where something new is put: where the path leads, or else the name below the
place of its parent. -/
def placeFor (disk : Disk) (p : Path) : Place :=
  match disk.locate p with
  | .ok place => place
  | .error _ =>
    match disk.locate (p.parent?.getD ⟨"."⟩), p.fileName? with
    | .ok place, some name => place ++ [name]
    | _, _ =>
      (p.absolutize disk.cwdPath).components.filterMap fun
        | .name s => some s
        | _ => none

def put (disk : Disk) (p : Path) (node : Node) : Disk :=
  { disk with root := Node.put node disk.root (disk.placeFor p) }

def graft (disk : Disk) (place : Place) (entries : List (String × Node)) : Disk :=
  let root := Node.put (.directory []) disk.root place
  { disk with root := entries.foldl (fun root entry => entry.2.put root (place ++ [entry.1])) root }

/-- Takes away what is at a path; a link itself goes, not what it leads to. -/
def remove (disk : Disk) (p : Path) : Disk :=
  match disk.locateLast .keep p with
  | .ok place => { disk with root := disk.root.remove place }
  | .error _ => disk

end Disk

end ModuleGraph
