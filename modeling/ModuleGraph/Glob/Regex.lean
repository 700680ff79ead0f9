import ModuleGraph.Glob.Pattern

set_option autoImplicit false

/-! # Globs as regular expressions

A set of globs is compiled into regular expressions over the units of a text. A glob that is
little more than a literal text needs none (`Glob.isSimple`), a glob that ends in a literal
extension has one for itself, and those of all others are compiled together. A regular expression
that is nested too deeply is refused, and with it the whole set (`Glob.setFault?`).

There is a limit on the size of what is compiled as well, of some mebibytes. It is not modelled.
-/

namespace ModuleGraph

/-- The units of a text, which are the bytes of its UTF-8 form. -/
abbrev Units := List UInt8

/-- A regular expression, as far as globs need one. -/
inductive Regex where
  | unit (u : UInt8)
  /-- Any unit. -/
  | dot
  | oneOf (negated : Bool) (ranges : List (UInt8 × UInt8))
  | optional (r : Regex)
  | many (r : Regex)
  | group (r : Regex)
  | sequence (rs : List Regex)
  | either (rs : List Regex)
deriving Repr, Inhabited

namespace Regex

mutual

/-- How deeply an expression is nested. The items of a class count as a level of their own when
there are several. -/
def depth : Regex → Nat
  | unit _ => 0
  | dot => 0
  | oneOf _ ranges => if ranges.length ≤ 1 then 1 else 2
  | optional r => depth r + 1
  | many r => depth r + 1
  | group r => depth r + 1
  | sequence rs => depthAll rs + 1
  | either rs => depthAll rs + 1

def depthAll : List Regex → Nat
  | [] => 0
  | r :: rs => max (depth r) (depthAll rs)

end

def isMeta (c : Char) : Bool := "\\.+*?()|[]\x7b\x7d^$#&-~".toList.contains c

def unitChars (u : UInt8) : List Char :=
  if u < 128 then
    let c := Char.ofNat u.toNat
    if isMeta c then ['\\', c] else [c]
  else '\\' :: 'x' :: Nat.toDigits 16 u.toNat

def rangeChars (range : UInt8 × UInt8) : List Char :=
  if range.1 = range.2 then unitChars range.1
  else unitChars range.1 ++ '-' :: unitChars range.2

mutual

def chars : Regex → List Char
  | unit u => unitChars u
  | dot => ['.']
  | oneOf negated ranges =>
    '[' :: ((if negated then ['^'] else []) ++ ranges.flatMap rangeChars ++ [']'])
  | optional r => chars r ++ ['?']
  | many r => chars r ++ ['*']
  | group r => '(' :: '?' :: ':' :: (chars r ++ [')'])
  | sequence rs => (charsAll rs).flatten
  | either rs => ['|'].intercalate (charsAll rs)

def charsAll : List Regex → List (List Char)
  | [] => []
  | r :: rs => chars r :: charsAll rs

end

/-- Expressions after each other; there is nothing around a single one. -/
def inSequence : List Regex → Regex
  | [r] => r
  | rs => sequence rs

/-- A choice between expressions; there is nothing around a single one. -/
def inChoice : List Regex → Regex
  | [r] => r
  | rs => either rs

end Regex

namespace Glob

def slash : UInt8 := 47

def unitsOf (c : Char) : Units := String.utf8EncodeChar c

/-- The ranges of units that a range of characters stands for: the units of its ends, the
last of the low end and the first of the high end spanning a range. -/
def unitRanges (low high : Char) : List (UInt8 × UInt8) :=
  if low = high then (unitsOf low).map fun u => (u, u)
  else
    let front := (unitsOf low).dropLast.map fun u => (u, u)
    let back := (unitsOf high).drop 1 |>.map fun u => (u, u)
    match (unitsOf low).getLast?, (unitsOf high).head? with
    | some a, some b => front ++ (a, b) :: back
    | _, _ => front ++ back

def notSlash : Regex := .oneOf true [(slash, slash)]

mutual

/-- The expressions that stand for an item, one after the other. -/
def regexes : GlobToken → List Regex
  | .literal c => (unitsOf c).map .unit
  | .any => [notSlash]
  | .star => [.many notSlash]
  | .leading =>
    [.group (.either [.optional (.unit slash), .sequence [.many .dot, .unit slash]])]
  | .trailing => [.unit slash, .many .dot]
  | .between =>
    [.group (.either [.unit slash, .sequence [.unit slash, .many .dot, .unit slash]])]
  | .oneOf negated ranges =>
    [.oneOf negated (ranges.flatMap fun range => unitRanges range.1 range.2)]
  | .alternates branches =>
    match regexesAny branches with
    | [] => []
    | parts => [.group (.inChoice parts)]

def regexesAll : List GlobToken → List Regex
  | [] => []
  | token :: tokens => regexes token ++ regexesAll tokens

/-- The expressions of several branches. A branch without any expression is left out. -/
def regexesAny : List (List GlobToken) → List Regex
  | [] => []
  | branch :: branches =>
    match regexesAll branch with
    | [] => regexesAny branches
    | items => .inSequence items :: regexesAny branches

end

/-- The expressions of a whole glob. A glob that is only `**` stands for any text. -/
def regexesOf : Glob → List Regex
  | [.leading] => [.many .dot]
  | glob => regexesAll glob

def regexText (glob : Glob) : String :=
  String.ofList ("(?-u)^".toList ++ (Regex.charsAll glob.regexesOf).flatten ++ ['$'])

def depthLimit : Nat := 250

/-- Whether the regular expression of a glob is refused. Its items are inside a sequence. -/
def isTooDeep (glob : Glob) : Bool := depthLimit < Regex.depthAll glob.regexesOf + 1

/-! ## Sets of globs -/

def isLiteral : GlobToken → Bool
  | .literal _ => true
  | _ => false

/-- Whether a glob needs no regular expression: it is a literal text, at any depth or for
everything below, or an extension. -/
def isSimple : Glob → Bool
  | .leading :: .star :: .literal '.' :: rest => rest.all fun
    | .literal c => c != '.' && c != '/'
    | _ => false
  | .leading :: rest => !rest.isEmpty && rest.all isLiteral
  | glob =>
    match glob.reverse with
    | .trailing :: rest => rest.all isLiteral
    | rest => !rest.isEmpty && rest.all isLiteral

/-- Whether a text that is read backwards starts with an extension. -/
def startsWithExtension : List GlobToken → Bool
  | .literal c :: rest => c != '/' && (c == '.' || startsWithExtension rest)
  | _ => false

/-- Whether a glob ends in an extension that is literal text. -/
def hasExtension (glob : Glob) : Bool := startsWithExtension glob.reverse

/-- Why a regular expression is refused, by its place among those compiled together. -/
def tooDeepMessage (place : Nat) : String := "error parsing pattern " ++ toString place

/-- What is wrong with a set of globs, if anything. Globs with an extension come first, and the
first one is reported, though the library looks at different extensions in no fixed order. -/
def setFault? (globs : List Glob) : Option GlobError :=
  let compiled := globs.filter fun glob => !glob.isSimple
  match (compiled.filter hasExtension).find? isTooDeep with
  | some glob => some (.notCompiled (some glob.regexText) (tooDeepMessage 0))
  | none =>
    ((compiled.filter fun glob => !glob.hasExtension).findIdx? isTooDeep).map fun place =>
      .notCompiled none (tooDeepMessage place)

end Glob

end ModuleGraph
