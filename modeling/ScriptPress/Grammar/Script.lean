import ScriptPress.Grammar.Statement

/-! # Scripts

The grammar with its nesting closed, and the reading of a whole script.
-/
namespace ScriptPress
namespace Grammar

/-- The readers over the readers for nested parts. -/
def step (g : Grammar) : Grammar where
  bound := g.bound + 1
  statement := g.statementOf
  assignment := g.assignmentOf
  expression := g.expressionOf
  unary := g.unaryOf
  member := g.memberOf

/-- The readers for parts nested to a depth. Each level of nesting takes a token. -/
def nested : Nat → Grammar
  | 0 =>
    { bound := 0
      statement := fun _ => unexpected
      assignment := fun _ => unexpected
      expression := fun _ => unexpected
      unary := unexpected
      member := fun _ => unexpected }
  | depth + 1 =>
    { bound := depth + 1
      statement := fun top s => (step (nested depth)).statement top s
      assignment := fun noIn s => (step (nested depth)).assignment noIn s
      expression := fun noIn s => (step (nested depth)).expression noIn s
      unary := fun s => (step (nested depth)).unary s
      member := fun allowCall s => (step (nested depth)).member allowCall s }

/-- The node of a script. -/
def scriptNode (source : String) (line lastLine : Nat) (scope : Scope) : Node :=
  let n := Node.script source line
  { n with properties := n.properties.put .endLine (.number lastLine)
      |>.put .vars (.texts scope.vars)
      |>.put .uses (.texts scope.uses)
      |>.put .functions (.nodes scope.functions) }

/-- Statements up to the end of the input, from before the first token. -/
def script (g : Grammar) (source : String) (line : Nat) : Reading Tree := do
  let _ ← advance
  let id ← freshId
  let statements ← g.itemsUntil (·.tag == .endOfInput) (g.statement true) []
  let comments ← takeComments
  let s ← get
  return withComments .trailingComments comments
    (.node id (scriptNode source line s.current.line s.scope) statements)

end Grammar

/-- How a text is read: the name and the first line its diagnostics go by, its dialect, and
whether its comments are kept. -/
structure ReadSettings where
  source : String := "<script>"
  startLine : Nat := 1
  dialect : Dialect := .latest
  keepComments : Bool := false
  deriving Repr, DecidableEq, Inhabited

/-- A script that was read: its tree, the texts of its comments and its tokens in their order, what
it is better without, with the lines, and the places of its tokens that end a statement without a
semicolon. -/
structure Script where
  tree : Tree
  source : String
  dialect : Dialect
  comments : List String
  tokens : List Token
  concerns : List (Concern × Nat)
  omitted : List Nat
  deriving Repr, Inhabited

namespace Script

/-- The state before the first token of a text. -/
def opening (settings : ReadSettings) (text : String) : Grammar.State where
  lexer := Lexer.start text settings.dialect settings.startLine settings.keepComments
  current :=
    { tag := .endOfInput, line := settings.startLine, start := 0, stop := 0, newlineBefore := false }
  previousLine := settings.startLine

/-- Reads a text as a script. -/
def read (settings : ReadSettings) (text : String) : Except Diagnostic Script :=
  let g := Grammar.nested (text.length + 1)
  match (g.script settings.source settings.startLine).run (opening settings text) with
  | .error d => .error d
  | .ok (tree, s) =>
    .ok { tree, source := settings.source, dialect := settings.dialect, comments := s.heard
          tokens := s.tokens, concerns := s.concerns, omitted := s.omitted }

end Script
end ScriptPress
