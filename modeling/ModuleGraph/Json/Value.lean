import ModuleGraph.Json.Document

set_option autoImplicit false

/-! # JSON values

A `Value` is a JSON text that has been understood completely, with the members of an object
in the order of their first mention. Values are read from documents (`Value.parse`), and
written in two forms: on one line (`Value.compact`) and indented by two spaces a level
(`Value.pretty`).
-/

namespace ModuleGraph.Json

inductive Value where
  | null
  | bool (value : Bool)
  | number (value : Decimal)
  | text (value : String)
  | array (items : List Value)
  | object (members : List (String × Value))
deriving Inhabited

namespace Value

def texts (items : List String) : Value := .array (items.map .text)

/-- Sets a member: an old one keeps its place and takes the new value. -/
def setMember (key : String) (value : Value) : List (String × Value) → List (String × Value)
  | [] => [(key, value)]
  | (k, v) :: rest =>
    if k = key then (k, value) :: rest else (k, v) :: setMember key value rest

/-- How deeply arrays and objects may be nested, counting the level that is refused. -/
def nestingLimit : Nat := 128

mutual

/-- The value of a document in which everything is used; `room` is what is left of the
nesting limit. -/
def ofDocument (room : Nat) : Document → Except Fault Value
  | .null => .ok .null
  | .bool b => .ok (.bool b)
  | .number d => if d.describe?.isSome then .ok (.number d) else .error .malformed
  | .text r => r.map .text
  | .array items stop => do
    if room ≤ 1 then throw .malformed
    let values ← ofItems (room - 1) items
    match stop with
    | some f => throw f
    | none => pure (.array values)
  | .object members stop => do
    if room ≤ 1 then throw .malformed
    let values ← ofMembers (room - 1) [] members
    match stop with
    | some f => throw f
    | none => pure (.object values)
  | .fault f => .error f

def ofItems (room : Nat) : List Document → Except Fault (List Value)
  | [] => .ok []
  | d :: rest => do
    let v ← ofDocument room d
    let vs ← ofItems room rest
    pure (v :: vs)

/-- The values of members; of two with one key, the later value counts. -/
def ofMembers (room : Nat) (acc : List (String × Value)) :
    List (Reading × Document) → Except Fault (List (String × Value))
  | [] => .ok acc
  | (key, d) :: rest => do
    let k ← key
    let v ← ofDocument room d
    ofMembers room (setMember k v acc) rest

end

def parse (text : String) : Except Fault Value := do
  let (document, after) := Document.read text
  let value ← ofDocument nestingLimit document
  match after with
  | some f => throw f
  | none => pure value

mutual

/-- A value as a document without faults. -/
def toDocument : Value → Document
  | .null => .null
  | .bool b => .bool b
  | .number d => .number d
  | .text s => .text (.ok s)
  | .array items => .array (itemsToDocuments items) none
  | .object members => .object (membersToDocuments members) none

def itemsToDocuments : List Value → List Document
  | [] => []
  | v :: rest => v.toDocument :: itemsToDocuments rest

def membersToDocuments : List (String × Value) → List (Reading × Document)
  | [] => []
  | (k, v) :: rest => (.ok k, v.toDocument) :: membersToDocuments rest

end

def get? (v : Value) (key : String) : Option Value :=
  match v with
  | .object members => members.lookup key
  | _ => none

def text? : Value → Option String
  | .text s => some s
  | _ => none

def items? : Value → Option (List Value)
  | .array items => some items
  | _ => none

def members? : Value → Option (List (String × Value))
  | .object members => some members
  | _ => none

/-! ## Writing -/

def hexChar (n : Nat) : Char := Char.ofNat (if n < 10 then 48 + n else 87 + n)

def escapeChar (c : Char) : List Char :=
  if c = '"' then ['\\', '"']
  else if c = '\\' then ['\\', '\\']
  else if c = '\x08' then ['\\', 'b']
  else if c = '\x0c' then ['\\', 'f']
  else if c = '\n' then ['\\', 'n']
  else if c = '\r' then ['\\', 'r']
  else if c = '\t' then ['\\', 't']
  else if c < ' ' then ['\\', 'u', '0', '0', hexChar (c.toNat / 16), hexChar (c.toNat % 16)]
  else [c]

def quote (s : String) : List Char := '"' :: s.toList.flatMap escapeChar ++ ['"']

/-- A number: a whole one by its digits, any other with an exponent. -/
def writeNumber (d : Decimal) : List Char :=
  (if d.negative then ['-'] else []) ++ Nat.toDigits 10 d.digits ++
    if d.exponent = 0 then []
    else if d.exponent > 0 then 'e' :: Nat.toDigits 10 d.exponent.toNat
    else 'e' :: '-' :: Nat.toDigits 10 (-d.exponent).toNat

mutual

/-- The value on one line, without any blank. -/
def compactChars : Value → List Char
  | .null => ['n', 'u', 'l', 'l']
  | .bool true => ['t', 'r', 'u', 'e']
  | .bool false => ['f', 'a', 'l', 's', 'e']
  | .number d => writeNumber d
  | .text s => quote s
  | .array [] => ['[', ']']
  | .array (v :: rest) => '[' :: compactChars v ++ compactItems rest ++ [']']
  | .object [] => ['\x7b', '\x7d']
  | .object ((k, v) :: rest) =>
    '\x7b' :: quote k ++ ':' :: compactChars v ++ compactMembers rest ++ ['\x7d']

/-- Further items, each after a comma. -/
def compactItems : List Value → List Char
  | [] => []
  | v :: rest => ',' :: compactChars v ++ compactItems rest

/-- Further members, each after a comma. -/
def compactMembers : List (String × Value) → List Char
  | [] => []
  | (k, v) :: rest => ',' :: quote k ++ ':' :: compactChars v ++ compactMembers rest

end

def compact (v : Value) : String := String.ofList v.compactChars

/-- A new line, indented by the given number of levels. -/
def newLine (level : Nat) : List Char := '\n' :: List.replicate (2 * level) ' '

mutual

/-- The value over several lines, at the given level of indentation. -/
def prettyChars (level : Nat) : Value → List Char
  | .null => ['n', 'u', 'l', 'l']
  | .bool true => ['t', 'r', 'u', 'e']
  | .bool false => ['f', 'a', 'l', 's', 'e']
  | .number d => writeNumber d
  | .text s => quote s
  | .array [] => ['[', ']']
  | .array (v :: rest) =>
    '[' :: newLine (level + 1) ++ prettyChars (level + 1) v ++ prettyItems (level + 1) rest ++
      newLine level ++ [']']
  | .object [] => ['\x7b', '\x7d']
  | .object ((k, v) :: rest) =>
    '\x7b' :: newLine (level + 1) ++ quote k ++ ':' :: ' ' :: prettyChars (level + 1) v ++
      prettyMembers (level + 1) rest ++ newLine level ++ ['\x7d']

/-- Further items, each on a line of its own. -/
def prettyItems (level : Nat) : List Value → List Char
  | [] => []
  | v :: rest => ',' :: newLine level ++ prettyChars level v ++ prettyItems level rest

/-- Further members, each on a line of its own. -/
def prettyMembers (level : Nat) : List (String × Value) → List Char
  | [] => []
  | (k, v) :: rest =>
    ',' :: newLine level ++ quote k ++ ':' :: ' ' :: prettyChars level v ++
      prettyMembers level rest

end

def pretty (v : Value) : String := String.ofList (v.prettyChars 0)

end Value

end ModuleGraph.Json
