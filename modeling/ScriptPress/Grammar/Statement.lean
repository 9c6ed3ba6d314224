import ScriptPress.Grammar.Expression

/-! # Statements

The grammar of statements. A statement takes the comments before it; comments with no statement
after them go to the block, the clauses or the script around them.
-/
namespace ScriptPress
namespace Grammar

/-- A block with its braces. -/
def block (g : Grammar) (construct : String) : Reading Tree := do
  let brace ← expect .leftBrace (.braceBeforeBody construct)
  g.blockAfterBrace false brace.line construct

/-- One declared variable and its initial value. -/
def declaration (g : Grammar) (noIn : Bool) : Reading Tree := do
  let (name, line) ← declaredName .variableName
  declare name line
  let id ← freshId
  let t := (← get).current
  if t.tag == .assign && t.datum.isNone then
    let _ ← advance
    let value ← g.assignment noIn
    return .node id (.identifier name line) [value]
  else return .node id (.identifier name line) []

/-- The word `var` and the variables after it. -/
def declarations (g : Grammar) (noIn : Bool) : Reading Tree := do
  let opening ← advance
  let names ← g.itemsBetweenCommas (g.declaration noIn)
  makeNode (.leaf .kwVar opening.line) names

/-- A condition with its parentheses. -/
def condition (g : Grammar) (keyword : Tag) : Reading Tree := do
  let _ ← expect .leftParen (.parenAfter keyword)
  let test ← g.expression false
  if test.tag == .assign && test.data.datum.isNone then
    warn .assignmentAsCondition test.line
  let _ ← expect .rightParen .parenAfterCondition
  return test

def ifStatement (g : Grammar) : Reading Tree := do
  let opening ← advance
  let test ← g.condition .kwIf
  let yes ← g.statement false
  let no ← if ← accept .kwElse then pure [← g.statement false] else pure []
  makeNode (.leaf .kwIf opening.line) (test :: yes :: no)

def whileStatement (g : Grammar) (pending : List NodeId) : Reading Tree := do
  let opening ← advance
  let id ← freshId
  let test ← g.condition .kwWhile
  let body ← withTarget id true pending (g.statement false)
  withJumps (.node id (.leaf .kwWhile opening.line) [test, body])

def doStatement (g : Grammar) (pending : List NodeId) : Reading Tree := do
  let opening ← advance
  let id ← freshId
  let body ← withTarget id true pending (g.statement false)
  let _ ← expect .kwWhile .whileAfterDo
  let test ← g.condition .kwWhile
  let _ ← accept .semicolon
  withJumps (.node id (.leaf .kwDo opening.line) [body, test])

/-- A part of a header that may be left out before a token. -/
def headerPart (before : Tag) (part : Reading Tree) : Reading Tree := do
  let t := (← get).current
  if t.tag == before then makeNode (.leaf .empty t.line) [] else part

/-- The first part of the header of a for loop. -/
def forStart (g : Grammar) : Reading Tree :=
  headerPart .semicolon do
    if ← check .kwVar then g.declarations true else g.expression true

/-- What a for-in loop assigns to: one variable, or an assignable expression. -/
def isForInTarget (t : Tree) : Bool :=
  if t.tag == .kwVar then t.children.length == 1 else t.tag.isAssignable

/-- The header of a loop after its first part: the tag of the loop and its parts. -/
def forHeader (g : Grammar) (first : Tree) : Reading (Tag × List Tree) := do
  if ← check .kwIn then
    if isForInTarget first then
      let _ ← advance
      let object ← g.expression false
      return (.forIn, [first, object])
    else failAt first.line .badForInTarget
  else
    let _ ← expect .semicolon .semicolonAfterForInit
    let test ← headerPart .semicolon (g.expression false)
    let _ ← expect .semicolon .semicolonAfterForCondition
    let update ← headerPart .rightParen (g.expression false)
    return (.kwFor, [first, test, update])

def forStatement (g : Grammar) (pending : List NodeId) : Reading Tree := do
  let opening ← advance
  let _ ← expect .leftParen (.parenAfter .kwFor)
  let first ← g.forStart
  let (tag, header) ← g.forHeader first
  let id ← freshId
  let _ ← expect .rightParen .parenAfterForControl
  let body ← withTarget id true pending (g.statement false)
  withJumps (.node id (.leaf tag opening.line) (header ++ [body]))

/-- The label behind the word of a jump, if there is one on the same line. -/
def jumpLabel : Reading (Option String) := do
  let t := (← get).current
  if t.tag == .identifier && !t.newlineBefore then return some (← advance).shown
  else return none

/-- The node of a label behind a jump. -/
def labelNode (label? : Option String) (line : Nat) : Reading (List Tree) := do
  match label? with
  | some label => return [← makeNode (.identifier label line) []]
  | none => return []

def jumpStatement : Reading Tree := do
  let opening ← advance
  let label? ← jumpLabel
  let target ← destination opening.tag label? opening.line
  let id ← freshId
  let name ← labelNode label? opening.line
  modify fun s => { s with jumps := s.jumps ++ [(target, id)] }
  endStatement
  return .node id (.jump opening.tag label? target opening.line) name

/-- Whether a statement can end before the current token. -/
def endsStatement (t : Token) : Bool :=
  t.tag == .semicolon || t.tag == .rightBrace || t.tag == .endOfInput || t.newlineBefore

def returnStatement (g : Grammar) : Reading Tree := do
  if (← get).scope.function?.isNone then fail .badReturn
  let opening ← advance
  let value ←
    if endsStatement (← get).current then pure [] else pure [← g.expression false]
  endStatement
  makeNode (.leaf .kwReturn opening.line) value

def withStatement (g : Grammar) : Reading Tree := do
  let opening ← advance
  let _ ← expect .leftParen (.parenAfter .kwWith)
  let object ← g.expression false
  let _ ← expect .rightParen .parenAfterCondition
  needActivation
  let body ← g.statement false
  makeNode (.leaf .kwWith opening.line) [object, body]

/-! ## Switch -/

/-- The tag of a clause and its test, up to the colon. -/
def clauseHead (g : Grammar) (hasDefault : Bool) : Reading (Node × List Tree) := do
  let t := (← get).current
  match t.tag with
  | .kwCase => do
    let _ ← advance
    let test ← g.expression false
    let _ ← expect .colon .colonAfterCase
    return (.leaf .kwCase t.line, [test])
  | .kwDefault => do
    if hasDefault then fail .duplicateDefault
    let _ ← advance
    let _ ← expect .colon .colonAfterCase
    return (.leaf .kwDefault t.line, [])
  | .endOfInput => fail (.missing (.braceAfterBody "switch"))
  | _ => unexpected

/-- Whether a token ends the statements of a clause. -/
def endsClause (t : Token) : Bool :=
  t.tag == .kwCase || t.tag == .kwDefault || t.tag == .rightBrace || t.tag == .endOfInput

/-- One more clause behind others, with the comments before it. -/
def clauseTurn (g : Grammar) (clauses : List Tree) : Reading (Turn (List Tree) (List Tree)) := do
  if ← check .rightBrace then return .done clauses
  let comments ← takeComments
  let hasDefault := clauses.any (·.tag == .kwDefault)
  let (data, test) ← g.clauseHead hasDefault
  let id ← freshId
  let statements ← g.itemsUntil endsClause (g.statement false) test
  return .again (clauses ++ [withComments .comments comments (.node id data statements)])

def clauses (g : Grammar) : Reading (List Tree) := g.repeatTurns g.clauseTurn []

/-- A switch with its clauses noted. -/
def switchNode (line : Nat) (clauses : List Tree) : Node :=
  let cases := (clauses.filter (·.tag == .kwCase)).map Tree.id
  let default? := (clauses.find? (·.tag == .kwDefault)).map Tree.id
  let n := (Node.leaf .kwSwitch line).put .cases (.nodes cases)
  { n with properties := n.properties.putIf .defaultClause (default?.map .node) }

def switchStatement (g : Grammar) : Reading Tree := do
  let opening ← advance
  let id ← freshId
  let _ ← expect .leftParen (.parenAfter .kwSwitch)
  let value ← g.expression false
  let _ ← expect .rightParen .parenAfterCondition
  let _ ← expect .leftBrace (.braceBeforeBody "switch")
  let clauses ← withTarget id false [] g.clauses
  let comments ← takeComments
  let _ ← expect .rightBrace (.braceAfterBody "switch")
  withJumps (withComments .trailingComments comments
    (.node id (switchNode opening.line clauses) (value :: clauses)))

/-! ## Exceptions -/

def throwStatement (g : Grammar) : Reading Tree := do
  let opening ← advance
  if (← get).current.newlineBefore then fail .throwNewline
  let value ← g.expression false
  endStatement
  makeNode (.leaf .kwThrow opening.line) [value]

/-- A guard of a catch clause, for the dialects that have guards. -/
def catchGuard (g : Grammar) : Reading (List Tree) := do
  if ← check .kwIf then
    let d := (← get).lexer.dialect
    if d.hasCatchGuards then
      let _ ← advance
      return [← g.expression false]
    else fail (.catchGuardUnsupported d)
  else return []

def catchClause (g : Grammar) : Reading Tree := do
  let opening ← advance
  let _ ← expect .leftParen (.parenAfter .kwCatch)
  let (name, line) ← declaredName .catchVariable
  let name ← makeNode (.identifier name line) []
  let guard ← g.catchGuard
  let _ ← expect .rightParen .parenAfterCondition
  let handler ← g.block "catch"
  makeNode (.leaf .kwCatch opening.line) (name :: guard ++ [handler])

/-- The part of a try that ends it in any case, if there is one. -/
def finallyPart (g : Grammar) : Reading (List Tree) := do
  if ← check .kwFinally then
    let t ← advance
    let body ← g.block "finally"
    return [← makeNode (.leaf .kwFinally t.line) [body]]
  else return []

def tryStatement (g : Grammar) : Reading Tree := do
  let opening ← advance
  let body ← g.block "try"
  let catches ← g.itemsUntil (·.tag != .kwCatch) g.catchClause []
  let finally? ← g.finallyPart
  if (catches ++ finally?).isEmpty then fail .missingCatchOrFinally
  makeNode (.leaf .kwTry opening.line) (body :: catches ++ finally?)

/-! ## Expressions and labels -/

/-- A label before its colon, with the labels in front of it, and the statement it labels. -/
def labelledStatement (g : Grammar) (name : String) (line : Nat) (pending : List NodeId) :
    Reading Tree := do
  if (labelNamed? name (← get)).isSome then failAt line (.duplicateLabel name)
  let _ ← advance
  let id ← freshId
  let nameNode ← makeNode (.identifier name line) []
  let s ← get
  set { s with labels := ⟨name, id, none⟩ :: s.labels, pendingLabels := pending ++ [id] }
  let body ← g.statement false
  modify ({ · with labels := s.labels })
  withJumps (.node id (.label name line) [nameNode, body])

/-- An expression statement, or a labelled one when a lone name comes before a colon. That name
is then no use of a variable. -/
def simpleStatement (g : Grammar) (pending : List NodeId) : Reading Tree := do
  let t := (← get).current
  if t.tag == .reserved then fail (.reservedWord t.shown)
  let used := (← get).scope.uses.contains t.shown
  let value ← g.expressionOf false
  if t.tag == .identifier && value.tag == .identifier && (← check .colon) then
    unless used do
      modifyScope fun s => { s with uses := s.uses.erase t.shown }
    g.labelledStatement t.shown t.line pending
  else
    unless value.hasEffect do warn .noSideEffects t.line
    endStatement
    makeNode (.leaf .exprStatement t.line) [value]

/-- The role of a function that begins a statement. -/
def functionRole (top : Bool) : FunctionRole :=
  if top then .statement else .expressionStatement

/-- A statement without the comments before it, by the token that begins it. -/
def bareStatement (g : Grammar) (top : Bool) (pending : List NodeId) : Reading Tree := do
  let t := (← get).current
  match t.tag with
  | .kwFunction => g.functionOf (functionRole top)
  | .leftBrace => g.block "block"
  | .kwVar => do
    let vars ← g.declarations false
    endStatement
    return vars
  | .semicolon => do
    let _ ← advance
    makeNode (.leaf .empty t.line) []
  | .kwIf => g.ifStatement
  | .kwWhile => g.whileStatement pending
  | .kwDo => g.doStatement pending
  | .kwFor => g.forStatement pending
  | .kwBreak | .kwContinue => jumpStatement
  | .kwReturn => g.returnStatement
  | .kwWith => g.withStatement
  | .kwSwitch => g.switchStatement
  | .kwThrow => g.throwStatement
  | .kwTry => g.tryStatement
  | _ => g.simpleStatement pending

/-- A statement, `top` when it is one of a script or of a function body. -/
def statementOf (g : Grammar) (top : Bool) : Reading Tree := do
  let comments ← takeComments
  let pending := (← get).pendingLabels
  modify ({ · with pendingLabels := [] })
  return withComments .comments comments (← g.bareStatement top pending)

end Grammar
end ScriptPress
