import ModuleGraph.Source.Character

set_option autoImplicit false

/-! # Tokens of source text

A token knows its kind, its text with all escapes resolved, and whether a line ends before
it. Words that only sometimes have a meaning are all of kind `name`; the parser asks for
their text.
-/

namespace ModuleGraph.Source

inductive TokenKind where
  /-- The end of the source. -/
  | eof
  /-- An identifier or a word of the language. -/
  | name
  /-- A name after a `#`. -/
  | privateName
  | number
  | bigint
  | string
  /-- An operator or a bracket. -/
  | punct
  /-- A piece of a template up to the next `${`. -/
  | templateOpen
  /-- The last piece of a template. -/
  | templateEnd
  | regex
  /-- Text between two JSX tags. -/
  | jsxText
deriving DecidableEq, Repr, Inhabited

structure Token where
  kind : TokenKind
  /-- The name, the string's value or the operator. -/
  text : String
  /-- Whether a line ends between the token before and this one. -/
  newline : Bool
  /-- Whether a name was written with escapes. -/
  escaped : Bool
  /-- Whether a string holds half a surrogate pair, or a template an escape without meaning. -/
  flawed : Bool
  /-- The source from the start of the token on. -/
  source : List Char
deriving Repr, Inhabited

/-- Words that are never names. -/
def reservedWords : List String :=
  ["break", "case", "catch", "class", "const", "continue", "debugger", "default", "delete",
   "do", "else", "enum", "export", "extends", "false", "finally", "for", "function", "if",
   "import", "in", "instanceof", "new", "null", "return", "super", "switch", "this", "throw",
   "true", "try", "typeof", "var", "void", "while", "with"]

/-- Words that strict code reserves and that are names for the parser all the same. -/
def futureWords : List String :=
  ["implements", "interface", "let", "package", "private", "protected", "public", "static"]

def isReserved (word : String) : Bool := reservedWords.contains word

namespace Token

def isPunct (t : Token) (p : String) : Bool := t.kind == .punct && t.text == p

def isWord (t : Token) (w : String) : Bool := t.kind == .name && t.text == w

def isWordOf (t : Token) (ws : List String) : Bool := t.kind == .name && ws.contains t.text

def isPunctOf (t : Token) (ps : List String) : Bool := t.kind == .punct && ps.contains t.text

/-- Whether the token is a name that is not reserved. -/
def isIdentifier (t : Token) : Bool := t.kind == .name && !isReserved t.text

def isTemplate (t : Token) : Bool := t.kind == .templateOpen || t.kind == .templateEnd

end Token

end ModuleGraph.Source
