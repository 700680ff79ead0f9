import ModuleGraph.Options
import ModuleGraph.Source.Extract
import ModuleGraph.Source.Parser.Program

set_option autoImplicit false

/-! # From a file to its facts

The language of a file follows from its extension and the options (`Language.ofFile`).
`parseFacts` parses a source in that language and extracts its facts; a script must not hold
imports or exports at its top.
-/

namespace ModuleGraph.Source

inductive ParseError where
  /-- The source is not well-formed. -/
  | syntaxError
  /-- A script imports or exports. -/
  | moduleSyntax
deriving DecidableEq, Repr, Inhabited

def ParseError.message : ParseError → String
  | .syntaxError => "<syntax error>"
  | .moduleSyntax => "'import' and 'export' may appear only with sourceType: module"

def Language.ofFile (options : ParserOptions) (p : Path) : Language :=
  { typed := p.hasExtension typedExtensions
    jsx := options.jsx || p.hasExtension jsxExtensions
    script := options.sourceKind == .script }

/-- The facts of a list of statements, unless they are a script with module syntax. -/
def factsOfProgram (kind : SourceKind) (program : List Statement) : Except ParseError Facts :=
  if kind = .script ∧ program.any (·.isModuleSyntax) then .error .moduleSyntax
  else .ok (Facts.ofStatements program)

def parseFacts (options : ParserOptions) (p : Path) (source : String) :
    Except ParseError Facts :=
  match parseProgram (Language.ofFile options p) source with
  | none => .error .syntaxError
  | some program => factsOfProgram options.sourceKind program

end ModuleGraph.Source
