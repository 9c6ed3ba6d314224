import ScriptPress.Render.Expression

/-! # Writing statements

In expanded output every statement begins a line; a block that is a body stays on the line of its
keyword. A body without braces is indented. Labels and clauses are set back.
-/
namespace ScriptPress
namespace Render

def isBlock (p : Part) : Bool := p.tag == .block

/-- A keyword, an expression in parentheses, and what follows. -/
def header (keyword : String) (test : Part) (rest : List WriterStep) : List WriterStep :=
  headed keyword ++ test.enclosed Precedence.comma ++ .token ")" :: rest

/-- What sets a word after a body off from it. -/
def afterBody (body : Part) : WriterStep := if isBlock body then .space else .newline

def ifSteps : List Part → List WriterStep
  | test :: yes :: rest =>
    let no := match rest with
      | [] => []
      | no :: _ => afterBody yes :: .token "else" :: no.statement .otherwise
    header "if" test (yes.statement .body ++ no)
  | _ => [.missing]

def varSteps (names : List Part) (noIn : Bool) : List WriterStep :=
  .token "var" :: separated (names.map fun name => name.statement (.declared noIn))

def declaredSteps (n : Node) (children : List Part) (noIn : Bool) : List WriterStep :=
  let value := match children with
    | [] => []
    | value :: _ =>
      .space :: .token "=" :: .space :: value.operand Precedence.assignment noIn
  .token (n.data?.getD "") :: value

/-- A part of a loop header after its semicolon; an empty one is left out. -/
def headerPartSteps (p : Part) : List WriterStep :=
  if p.tag == .empty then [.token ";"]
  else .token ";" :: .space :: p.enclosed Precedence.comma

def forSteps : List Part → List WriterStep
  | start :: test :: update :: body :: _ =>
    headed "for" ++ start.statement .loopStart ++ headerPartSteps test ++ headerPartSteps update
      ++ .token ")" :: body.statement .body
  | _ => [.missing]

def forInSteps : List Part → List WriterStep
  | start :: object :: body :: _ =>
    headed "for" ++ start.statement .loopStart ++ .token "in" :: object.enclosed Precedence.comma
      ++ .token ")" :: body.statement .body
  | _ => [.missing]

def switchSteps (o : RenderOptions) (n : Node) : List Part → List WriterStep
  | value :: clauses =>
    let written := match clauses with
      | [] => []
      | first :: rest =>
        first.statement (.switchClause true)
          ++ rest.flatMap fun c => c.statement (.switchClause false)
    header "switch" value (.space :: .token "\x7b" :: .indent :: written)
      ++ trailingComments o n ++ [.outdent, .newline, .token "\x7d"]
  | [] => [.missing]

def trySteps : List Part → List WriterStep
  | body :: clauses =>
    .token "try" :: .space :: body.statement .block
      ++ clauses.flatMap fun c => .space :: c.statement .tryClause
  | [] => [.missing]

/-- The blank line before a label or clause that is not the first of its list. -/
def labelGap (o : RenderOptions) (first : Bool) : List WriterStep :=
  if o.layout.blankBeforeLabel && !first then [.blankLine] else []

/-- A clause of a switch. -/
def switchClauseSteps (o : RenderOptions) (n : Node) (children : List Part) (first : Bool) :
    List WriterStep :=
  let lead := .newline :: labelGap o first ++ leadingComments o n ++ [.setBackLine]
  if n.tag == .kwCase then
    let test := match children with
      | [] => []
      | test :: _ => test.enclosed Precedence.comma
    lead ++ .token "case" :: test ++ .token ":" :: listed (children.drop 1)
  else lead ++ .token "default" :: .token ":" :: listed children

/-- A clause of a try: a catch with its name, its guard if it has one and its block, or a
finally. -/
def tryClauseSteps (n : Node) (children : List Part) : List WriterStep :=
  if n.tag == .kwCatch then
    match children with
    | name :: rest =>
      let guard := match rest with
        | [guard, _] => .token "if" :: guard.enclosed Precedence.comma
        | _ => []
      let handler := rest.getLast?.getD name
      headed "catch" ++ .token name.text :: guard ++ .token ")" :: .space
        :: handler.statement .block
    | [] => [.missing]
  else
    let body := match children with
      | body :: _ => body.statement .block
      | [] => []
    .token "finally" :: .space :: body

/-- A statement without the line break and the comments before it. -/
def bareStatement (o : RenderOptions) (t : Tree) (children : List Part) : List WriterStep :=
  let n := t.data
  match n.tag, children with
  | .kwFunction, _ => functionSteps n children ++ [.newline]
  | .block, _ => blockSteps o n children ++ [.newline]
  | .kwVar, _ => varSteps children false ++ [.semicolon]
  | .exprStatement, [] => [.semicolon]
  | .exprStatement, value :: _ =>
    value.expr { use := .operand Precedence.comma, leads := true } ++ [.semicolon]
  | .empty, _ => [.hardSemicolon]
  | .kwIf, _ => ifSteps children
  | .kwWhile, test :: body :: _ => header "while" test (body.statement .body)
  | .kwWith, object :: body :: _ => header "with" object (body.statement .body)
  | .kwDo, body :: test :: _ =>
    .token "do" :: body.statement .body ++ afterBody body :: header "while" test [.semicolon]
  | .kwFor, _ => forSteps children
  | .forIn, _ => forInSteps children
  | .kwReturn, [] | .kwThrow, [] => [.token n.tag.spelling, .semicolon]
  | .kwReturn, value :: _ | .kwThrow, value :: _ =>
    .token n.tag.spelling :: value.enclosed Precedence.comma ++ [.semicolon]
  | .kwBreak, [] | .kwContinue, [] => [.token n.tag.spelling, .semicolon]
  | .kwBreak, label :: _ | .kwContinue, label :: _ =>
    [.token n.tag.spelling, .token label.text, .semicolon]
  | .kwSwitch, _ => switchSteps o n children
  | .kwTry, _ => trySteps children
  | .label, name :: rest =>
    let body := match rest with
      | [] => []
      | body :: _ => body.statement (.listed true)
    .setBackLine :: .token name.text :: .token ":" :: .newline :: body
  | .kwWhile, _ | .kwWith, _ | .kwDo, _ | .label, _ => [.missing]
  | _, _ => exprSteps o t children { use := .operand Precedence.comma } ++ [.semicolon]

/-- A statement in a list. -/
def listedSteps (o : RenderOptions) (t : Tree) (children : List Part) (first : Bool) :
    List WriterStep :=
  let gap := if t.tag == .label then labelGap o first else []
  .newline :: gap ++ leadingComments o t.data ++ bareStatement o t children

/-- A body; without braces it is indented. -/
def bodyRole (o : RenderOptions) (t : Tree) (children : List Part) : List WriterStep :=
  if t.tag == .block then .space :: bodySteps o t.data children
  else .indent :: listedSteps o t children true ++ [.outdent]

/-- The branch of an else. An `if` continues the line. -/
def otherwiseRole (o : RenderOptions) (t : Tree) (children : List Part) : List WriterStep :=
  if t.tag == .kwIf then leadingComments o t.data ++ .space :: ifSteps children
  else bodyRole o t children

/-- The first part of a loop header, where `in` is not free. -/
def loopStartRole (o : RenderOptions) (t : Tree) (children : List Part) : List WriterStep :=
  if t.tag == .empty then []
  else if t.tag == .kwVar then varSteps children true
  else exprSteps o t children { use := .operand Precedence.comma, noIn := true }

def statementSteps (o : RenderOptions) (t : Tree) (children : List Part) :
    Role → List WriterStep
  | .listed first => listedSteps o t children first
  | .body => bodyRole o t children
  | .otherwise => otherwiseRole o t children
  | .block => blockSteps o t.data children
  | .switchClause first => switchClauseSteps o t.data children first
  | .tryClause => tryClauseSteps t.data children
  | .loopStart => loopStartRole o t children
  | .declared noIn => declaredSteps t.data children noIn

/-! ## Trees -/

mutual

/-- The part of a tree. -/
def part (o : RenderOptions) : Tree → Part
  | .node id data children =>
    let t := Tree.node id data children
    let parts := partsOf o children
    { tree := t
      expr := fun place => exprSteps o t parts place
      statement := fun role => statementSteps o t parts role }

def partsOf (o : RenderOptions) : List Tree → List Part
  | [] => []
  | t :: rest => part o t :: partsOf o rest

end

/-- The statements below a node, and the comments after them. -/
def scriptSteps (o : RenderOptions) (t : Tree) : List WriterStep :=
  listed (partsOf o t.children) ++ trailingComments o t.data

/-- The text of instructions. -/
def write (o : RenderOptions) (steps : List WriterStep) : String :=
  (({ layout := o.layout, compact := o.compact : Writer }).run steps).finish

/-- The text of the statements below a node. -/
def script (o : RenderOptions) (t : Tree) : String := write o (scriptSteps o t)

end Render
end ScriptPress
