import ModuleGraph.Json.Decode
import ModuleGraph.Path.Map

set_option autoImplicit false

/-! # Options of a dependency walk

`GraphOptions` says where a walk starts, how far it goes, how modules are parsed and how
their specifiers are resolved. Options are read from JSON, where every field may be left
out (`GraphOptions.ofJson`).
-/

namespace ModuleGraph

/-! ## Defaults -/

/-- Extensions of the files that are taken from a directory. -/
def moduleExtensions : List String := ["js", "jsx", "mjs", "cjs", "ts", "tsx", "mts", "cts"]

/-- Extensions of files that are parsed as TypeScript. -/
def typedExtensions : List String := ["ts", "tsx", "mts", "cts"]

/-- Extensions of files in which JSX is always allowed. -/
def jsxExtensions : List String := ["jsx", "tsx"]

/-- Extensions that a specifier may leave out, in the order in which they are tried. -/
def resolveExtensions : List String :=
  [".js", ".jsx", ".mjs", ".cjs", ".ts", ".tsx", ".mts", ".cts", ".json"]

/-- Extensions of files that must parse. -/
def strictExtensions : List String := ["js"]

def libraryDirs : List String := ["node_modules"]

/-- Fields of a package description that name its entry file. -/
def mainFields : List String := ["module", "main"]

/-- Conditions under which a package's exports are looked up. -/
def conditionNames : List String := ["import", "module", "default"]

/-! ## Options -/

inductive SourceKind where
  | module
  | script
deriving DecidableEq, Repr, Inhabited

inductive OutputMode where
  /-- Imports, exports, loaded files and parse failures. -/
  | full
  /-- Imports and loaded files. -/
  | dependencies
deriving DecidableEq, Repr, Inhabited

structure ParserOptions where
  sourceKind : SourceKind := .module
  jsx : Bool := true
deriving DecidableEq, Repr, Inhabited

structure ResolveOptions where
  /-- Extensions that may be left out, with their dot. -/
  extensions : List String := resolveExtensions
  /-- Directories that hold packages. -/
  modules : List String := libraryDirs
  mainFields : List String := ModuleGraph.mainFields
  conditionNames : List String := ModuleGraph.conditionNames
  /-- Replacements for the start of a specifier, in the order of their keys. -/
  aliases : List (String × List String) := []
deriving DecidableEq, Repr, Inhabited

/-- Where a walk starts and how it goes on. -/
structure GraphOptions where
  files : List Path := []
  recurse : Bool := true
  exclude : List String := []
  parserOptions : ParserOptions := {}
  resolveOptions : ResolveOptions := {}
  strictExtensions : List String := ModuleGraph.strictExtensions
  libraryDirs : List String := ModuleGraph.libraryDirs
  output : OutputMode := .full
deriving DecidableEq, Repr, Inhabited

/-- Whether a file that does not parse ends the walk. -/
def GraphOptions.isStrict (options : GraphOptions) (p : Path) : Bool :=
  p.hasExtension options.strictExtensions

/-- Sets the value of a key in a list that is ordered by key. -/
def setKey {α : Type} (key : String) (value : α) : List (String × α) → List (String × α)
  | [] => [(key, value)]
  | (k, v) :: rest =>
    if key < k then (key, value) :: (k, v) :: rest
    else if key = k then (k, value) :: rest
    else (k, v) :: setKey key value rest

def setKeys {α : Type} (entries : List (String × α)) (table : List (String × α)) :
    List (String × α) :=
  entries.foldl (fun acc entry => setKey entry.1 entry.2 acc) table

/-! ## Decoding -/

open Json

def decodeTexts : Decoder (List String) := decodeList (decodeText "a string")

def SourceKind.decode : Decoder SourceKind :=
  decodeChoice [("module", .module), ("script", .script)]

def OutputMode.decode : Decoder OutputMode :=
  decodeChoice [("full", .full), ("dependencies", .dependencies)]

def ParserOptions.fields : List (RecordField ParserOptions) :=
  [RecordField.of "sourceType" SourceKind.decode fun a r => { r with sourceKind := a },
   RecordField.of "jsx" decodeBool fun a r => { r with jsx := a }]

def ParserOptions.decode : Decoder ParserOptions :=
  decodeRecord "ParserOptions" ParserOptions.fields .allowed {}

def ResolveOptions.fields : List (RecordField ResolveOptions) :=
  [RecordField.of "extensions" decodeTexts fun a r => { r with extensions := a },
   RecordField.of "modules" decodeTexts fun a r => { r with modules := a },
   RecordField.of "mainFields" decodeTexts fun a r => { r with mainFields := a },
   RecordField.of "conditionNames" decodeTexts fun a r => { r with conditionNames := a },
   RecordField.of "alias" (decodeMap decodeTexts) fun a r => { r with aliases := setKeys a [] }]

def ResolveOptions.decode : Decoder ResolveOptions :=
  decodeRecord "ResolveOptions" ResolveOptions.fields .allowed {}

def GraphOptions.fields : List (RecordField GraphOptions) :=
  [RecordField.of "files" decodeOneOrMany fun a r => { r with files := a.map Path.mk },
   RecordField.of "recurse" decodeBool fun a r => { r with recurse := a },
   RecordField.of "exclude" decodeOneOrMany fun a r => { r with exclude := a },
   RecordField.of "parserOptions" ParserOptions.decode fun a r => { r with parserOptions := a },
   RecordField.of "resolveOptions" ResolveOptions.decode fun a r => { r with resolveOptions := a },
   RecordField.of "strictExtensions" decodeTexts fun a r => { r with strictExtensions := a },
   RecordField.of "libraryDirs" decodeTexts fun a r => { r with libraryDirs := a },
   RecordField.of "output" OutputMode.decode fun a r => { r with output := a }]

def GraphOptions.decode : Decoder GraphOptions :=
  decodeRecord "GraphOptions" GraphOptions.fields .allowed {}

def GraphOptions.ofJson (text : String) : Except Problem GraphOptions :=
  decodeWhole GraphOptions.decode text

end ModuleGraph
