import ModuleGraph.Source.Parser.Jsx
import ModuleGraph.Source.Parser.Statements

set_option autoImplicit false

/-! # Whole sources

Here the rules of the grammar are tied together (`rulesUpTo`), and a source is parsed as the
list of its statements (`parseProgram`). No two exports of a source may have one name; typed
sources are not held to that.
-/

namespace ModuleGraph.Source

namespace Parser

/-- One step of the grammar: the rule for a goal, in terms of the rules that it uses. -/
def rulesStep (rules : Rules) : Rules
  | .expression => expression rules
  | .assignment arrowType => assignment rules arrowType
  | .binary strength => binary rules strength
  | .simpleUnary => simpleUnary rules
  | .leftHand => leftHand rules
  | .primary => primary rules
  | .pattern => pattern rules
  | .statement placement => statement rules placement
  | .jsx => jsxElement rules
  | .type => type rules
  | .typeOperand => typeOperand rules

/-- The rules of the grammar for sources that are nested to a limited depth. -/
def rulesUpTo : Nat → Rules
  | 0, _ => reject
  | depth + 1, goal => rulesStep (rulesUpTo depth) goal

def statementsToEnd (rules : Rules) : Parser (List Statement) :=
  loop ([] : List Statement) fun acc => do
    if ← isAtKind .eof then return .inr acc.reverse
    let s ← rules (.statement .list)
    return .inl (s :: acc)

def exportedNames : Statement → List String
  | .exportDefault _ => ["default"]
  | .exportAll _ (some name) _ => [name]
  | .exportItems items _ _ => items.map (·.exported)
  | .exportDeclaration ⟨.function (some name) _, _⟩ => [name]
  | .exportDeclaration ⟨.class (some name) _, _⟩ => [name]
  | .exportDeclaration ⟨.bindings patterns, _⟩ => patterns.flatMap (·.boundNames)
  | _ => []

/-- Whether no two exports have one name. -/
def exportsDiffer (program : List Statement) : Bool :=
  let names := program.flatMap exportedNames
  names.eraseDups.length == names.length

end Parser

/-- The statements of a source, or nothing where it is not well-formed. Every nesting of the
grammar reads at least one character in at most sixteen goals, so the depth is bounded by
the length of the source. -/
def parseProgram (language : Language) (source : String) : Option (List Statement) := do
  let cs := dropHashbang source.toList
  let size := cs.length + 4
  let (first, rest) ← readToken language.script true cs
  let context : Context :=
    { language := language, bound := size, awaitAllowed := !language.script }
  let (program, state) ←
    Parser.statementsToEnd (Parser.rulesUpTo (16 * size)) context { token := first, rest := rest }
  if state.loose.isEmpty && (language.typed || Parser.exportsDiffer program) then some program
  else none

end ModuleGraph.Source
