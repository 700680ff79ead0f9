import ModuleGraph.Json.Value

set_option autoImplicit false

/-! # Decoding documents into typed records

A decoder goes through a document from left to right and reports the first thing that is
wrong: a fault of the text, or a value of the wrong kind (`Problem`).

A record may be written as an object or as the array of its fields in their declared order
(`decodeRecord`). In an object, members that the record does not know are skipped and a
known one may occur once.
-/

namespace ModuleGraph.Json

inductive Problem where
  /-- The text is not JSON. -/
  | fault (cause : Fault)
  /-- The text is JSON of another shape. -/
  | mismatch (message : String)
deriving DecidableEq, Repr, Inhabited

/-- Characters that a quoted text shows by their number: controls, and marks that cannot be
seen by themselves. -/
def isHidden (c : Char) : Bool :=
  let n := c.toNat
  n < 0x20 || (0x7F ≤ n && n < 0xA0) || n == 0xAD || (0x300 ≤ n && n < 0x370) ||
    (0x200B ≤ n && n < 0x2010) || (0x2028 ≤ n && n < 0x2030) || (0x205F ≤ n && n < 0x2070) ||
    (0xE000 ≤ n && n < 0xF900) || (0xFE00 ≤ n && n < 0xFE10) || n == 0xFEFF ||
    (0xFFF0 ≤ n && n < 0xFFFC) || n ≥ 0xE0000

def showChar (c : Char) : List Char :=
  if c = '"' then ['\\', '"']
  else if c = '\\' then ['\\', '\\']
  else if c = '\n' then ['\\', 'n']
  else if c = '\r' then ['\\', 'r']
  else if c = '\t' then ['\\', 't']
  else if c = '\x00' then ['\\', '0']
  else if isHidden c then ['\\', 'u', '\x7b'] ++ Nat.toDigits 16 c.toNat ++ ['\x7d']
  else [c]

def showText (s : String) : String := String.ofList ('"' :: s.toList.flatMap showChar ++ ['"'])

namespace Document

/-- How a value is named in a message about it. -/
def describe : Document → Except Fault String
  | .null => .ok "null"
  | .bool b => .ok (if b then "boolean `true`" else "boolean `false`")
  | .number d =>
    match d.describe? with
    | some s => .ok s
    | none => .error .malformed
  | .text r => r.map fun s => "string " ++ showText s
  | .array _ _ => .ok "sequence"
  | .object _ _ => .ok "map"
  | .fault f => .error f

end Document

abbrev Decoder (α : Type) := Document → Except Problem α

def liftFault {α : Type} (r : Except Fault α) : Except Problem α := r.mapError .fault

def raise? (stop : Option Fault) : Except Problem Unit :=
  match stop with
  | some f => .error (.fault f)
  | none => .ok ()

def wrongKind {α : Type} (want : String) (d : Document) : Except Problem α :=
  match d.describe with
  | .error f => .error (.fault f)
  | .ok got => .error (.mismatch ("invalid type: " ++ got ++ ", expected " ++ want))

def decodeBool : Decoder Bool
  | .bool b => .ok b
  | d => wrongKind "a boolean" d

/-- Decodes a text, named `want` in messages. -/
def decodeText (want : String) : Decoder String
  | .text r => liftFault r
  | d => wrongKind want d

def decodeItems {α : Type} (item : Decoder α) : List Document → Except Problem (List α)
  | [] => .ok []
  | d :: rest => do
    let a ← item d
    let more ← decodeItems item rest
    pure (a :: more)

def decodeList {α : Type} (item : Decoder α) : Decoder (List α)
  | .array items stop => do
    let values ← decodeItems item items
    raise? stop
    pure values
  | d => wrongKind "a sequence" d

def decodeMembers {α : Type} (value : Decoder α) :
    List (Reading × Document) → Except Problem (List (String × α))
  | [] => .ok []
  | (key, d) :: rest => do
    let k ← liftFault key
    let a ← value d
    let more ← decodeMembers value rest
    pure ((k, a) :: more)

/-- Decodes an object into its members, in the order of the text. -/
def decodeMap {α : Type} (value : Decoder α) : Decoder (List (String × α))
  | .object members stop => do
    let values ← decodeMembers value members
    raise? stop
    pure values
  | d => wrongKind "a map" d

def orList (names : List String) : String :=
  String.intercalate " or " (names.map fun n => "`" ++ n ++ "`")

def decodeName {α : Type} (alternatives : List (String × α)) (name : String) :
    Except Problem α :=
  match alternatives.lookup name with
  | some a => .ok a
  | none =>
    .error (.mismatch ("unknown variant `" ++ name ++ "`, expected " ++
      orList (alternatives.map (·.1))))

/-- Decodes one of several named alternatives, written as its name or as an object that
maps its name to `null`. -/
def decodeChoice {α : Type} (alternatives : List (String × α)) : Decoder α
  | .text r => do
    let name ← liftFault r
    decodeName alternatives name
  | .object [] stop => .error (.fault (stop.getD .malformed))
  | .object ((key, d) :: more) stop => do
    let name ← liftFault key
    let a ← decodeName alternatives name
    match d with
    | .null => pure ()
    | d => wrongKind "unit" d
    if more.isEmpty then
      raise? stop
      pure a
    else throw (.fault .malformed)
  | .fault f => .error (.fault f)
  | _ => .error (.fault .malformed)

/-- The message of a value that is neither one text nor a list of texts. -/
def oneOrManyMessage : String := "data did not match any variant of untagged enum OneOrMany"

/-- Decodes one text or a list of texts. The value is first read completely, one level
below the record that it belongs to. -/
def decodeOneOrMany : Decoder (List String) := fun d => do
  let value ← liftFault (Value.ofDocument (Value.nestingLimit - 1) d)
  match value with
  | .text s => pure [s]
  | .array items =>
    match items.mapM Value.text? with
    | some texts => pure texts
    | none => throw (.mismatch oneOrManyMessage)
  | _ => throw (.mismatch oneOrManyMessage)

/-! ## Records -/

/-- A field of a record: its name, and how a document updates the record. -/
structure RecordField (ρ : Type) where
  name : String
  set : Document → ρ → Except Problem ρ

/-- A field that is decoded and then stored. -/
def RecordField.of {ρ α : Type} (name : String) (decode : Decoder α) (store : α → ρ → ρ) :
    RecordField ρ :=
  ⟨name, fun d r => (decode d).map fun a => store a r⟩

/-- Whether absent fields keep the value they start with or are refused. -/
inductive Absent where
  | allowed
  | refused
deriving DecidableEq, Repr

/-- Goes through the members of an object; `seen` names the fields met so far. -/
def decodeFields {ρ : Type} (fields : List (RecordField ρ)) (seen : List String) (r : ρ) :
    List (Reading × Document) → Except Problem (List String × ρ)
  | [] => .ok (seen, r)
  | (key, d) :: rest => do
    let k ← liftFault key
    match fields.find? (·.name == k) with
    | none =>
      raise? d.grammarFault?
      decodeFields fields seen r rest
    | some field =>
      if seen.contains k then throw (.mismatch ("duplicate field `" ++ k ++ "`"))
      let r ← field.set d r
      decodeFields fields (k :: seen) r rest

/-- Goes through the items of an array that gives the fields in their order; the answer
names the number of items used and what is left of them. -/
def decodePositions {ρ : Type} (r : ρ) :
    List (RecordField ρ) → List Document → Except Problem (ρ × List (RecordField ρ) × List Document)
  | field :: fields, d :: rest => do
    let r ← field.set d r
    decodePositions r fields rest
  | fields, rest => .ok (r, fields, rest)

/-- Decodes a record from an object or from an array, starting with the value `start`. -/
def decodeRecord {ρ : Type} (name : String) (fields : List (RecordField ρ)) (absent : Absent)
    (start : ρ) : Decoder ρ
  | .object members stop => do
    let (seen, r) ← decodeFields fields [] start members
    raise? stop
    match absent, fields.find? (fun f => !seen.contains f.name) with
    | .refused, some f => throw (.mismatch ("missing field `" ++ f.name ++ "`"))
    | _, _ => pure r
  | .array items stop => do
    let (r, missing, extra) ← decodePositions start fields items
    if !extra.isEmpty then throw (.fault .malformed)
    raise? stop
    if absent = .refused ∧ !missing.isEmpty then
      throw (.mismatch (s!"invalid length {items.length}, expected struct " ++ name ++
        s!" with {fields.length} elements"))
    pure r
  | d => wrongKind ("struct " ++ name) d

def decodeWhole {α : Type} (decode : Decoder α) (text : String) : Except Problem α := do
  let (document, after) := Document.read text
  let a ← decode document
  raise? after
  pure a

end ModuleGraph.Json
