import ScriptPress.Grammar.State
import ScriptPress.Tree.Precedence

/-! # Expressions

The grammar of expressions, the loosest binding first. Where a part of an expression can hold any
expression or function again, the grammar goes through `Grammar`, the readers for nested parts.
These are called only after a token was taken, so that a bound on the depth of nesting is enough.
-/
namespace ScriptPress

open Grammar in
/-- The readers for nested parts, for texts of no more tokens than `bound`. -/
structure Grammar where
  bound : Nat
  statement : (top : Bool) → Reading Tree
  assignment : (noIn : Bool) → Reading Tree
  expression : (noIn : Bool) → Reading Tree
  unary : Reading Tree
  member : (allowCall : Bool) → Reading Tree

namespace Grammar

/-- Repeats a step as often as the text allows. -/
def repeatTurns {α β : Type} (g : Grammar) (step : α → Reading (Turn α β)) (a : α) : Reading β :=
  iterate step (g.bound + 1) a

/-- One more item, and whether a comma asks for another. -/
def separatedTurn {α : Type} (item : Reading α) (items : List α) :
    Reading (Turn (List α) (List α)) := do
  let items := items ++ [← item]
  if ← accept .comma then return .again items
  return .done items

/-- Items with commas between them. -/
def itemsBetweenCommas {α : Type} (g : Grammar) (item : Reading α) : Reading (List α) :=
  g.repeatTurns (separatedTurn item) []

/-- One more item, unless the current token ends the items. -/
def untilTurn {α : Type} (ends : Token → Bool) (item : Reading α) (items : List α) :
    Reading (Turn (List α) (List α)) := do
  if ends (← get).current then return .done items
  return .again (items ++ [← item])

/-- Items behind the first ones, up to a token that ends them. -/
def itemsUntil {α : Type} (g : Grammar) (ends : Token → Bool) (item : Reading α)
    (first : List α) : Reading (List α) :=
  g.repeatTurns (untilTurn ends item) first

/-! ## Literals -/

/-- The elements of an array after its bracket; an empty one for each hole. The last comma before
the closing bracket adds none. -/
def arrayElement (g : Grammar) (elements : List Tree) :
    Reading (Turn (List Tree) (List Tree)) := do
  if ← check .rightBracket then return .done elements
  if ← check .comma then
    let t ← advance
    return .again (elements ++ [← makeNode (.leaf .empty t.line) []])
  let elements := elements ++ [← g.assignment false]
  if ← check .comma then
    let t ← advance
    if ← check .rightBracket then
      warn .trailingComma t.line
      return .done elements
    return .again elements
  if ← check .rightBracket then return .again elements
  fail (.missing .bracketAfterElements)

def arrayLiteral (g : Grammar) : Reading Tree := do
  let opening ← advance
  let elements ← g.repeatTurns g.arrayElement []
  let _ ← expect .rightBracket .bracketAfterElements
  makeNode (.leaf .arrayLit opening.line) elements

/-- The key of a property: a name, a reserved word, a string or a number. -/
def propertyKey : Reading Tree := do
  let t := (← get).current
  match t.tag with
  | .identifier => do
    let t ← advance
    makeNode (.identifier t.shown t.line) []
  | .reserved => do
    let t ← advance
    warn (.reservedPropertyName t.shown) t.line
    makeNode (.identifier t.shown t.line) []
  | .string => do
    let t ← advance
    makeNode (.string t.shown t.line) []
  | .number => do
    let t ← advance
    makeNode (.number t.shown t.line) []
  | _ => fail (.missing .propertyId)

/-- The properties of an object after its brace, keys and values in turn. -/
def objectProperty (g : Grammar) (parts : List Tree) :
    Reading (Turn (List Tree) (List Tree)) := do
  if ← check .rightBrace then return .done parts
  let key ← propertyKey
  let _ ← expect .colon .colonAfterPropertyId
  let value ← g.assignment false
  let parts := parts ++ [key, value]
  if ← check .comma then
    let t ← advance
    if ← check .rightBrace then
      warn .trailingComma t.line
      return .done parts
    return .again parts
  if ← check .rightBrace then return .again parts
  fail (.missing .braceAfterProperties)

def objectLiteral (g : Grammar) : Reading Tree := do
  let opening ← advance
  let parts ← g.repeatTurns g.objectProperty []
  let _ ← expect .rightBrace .braceAfterProperties
  makeNode (.leaf .objectLit opening.line) parts

/-! ## Functions -/

/-- The statements up to a closing brace or the end of the input. -/
def statementsToBrace (g : Grammar) (top : Bool) : Reading (List Tree) :=
  g.itemsUntil (fun t => t.tag == .rightBrace || t.tag == .endOfInput) (g.statement top) []

/-- A block whose opening brace is to be taken at a line, for the body of a construct. -/
def blockAfterBrace (g : Grammar) (top : Bool) (line : Nat) (construct : String) :
    Reading Tree := do
  let id ← freshId
  let statements ← g.statementsToBrace top
  let comments ← takeComments
  let _ ← expect .rightBrace (.braceAfterBody construct)
  return withComments .trailingComments comments (.node id (.leaf .block line) statements)

/-- The parameters of a function between its parentheses. -/
def parameters (g : Grammar) : Reading (List String) := do
  if ← check .rightParen then return []
  g.itemsBetweenCommas (do return (← declaredName .formalParameter).1)

/-- The name of a function; only an expression can do without. -/
def functionName (role : FunctionRole) : Reading (Option String) := do
  let t := (← get).current
  if t.tag == .identifier || t.tag == .reserved then
    return some (← declaredName .functionName).1
  if role == .expression then return none
  fail (.missing .functionName)

/-- Reads a function body in a scope of its own. Jumps do not cross functions. -/
def inFunction {α : Type} (id : NodeId) (body : Reading α) : Reading (α × Scope) := do
  let s ← get
  let outer := { s.scope with functions := s.scope.functions ++ [id] }
  set { s with
    scope := { function? := some id }, targets := [], labels := [], pendingLabels := [] }
  let a ← body
  let inner := (← get).scope
  modify ({ · with
    scope := outer, targets := s.targets, labels := s.labels, pendingLabels := s.pendingLabels })
  return (a, inner)

/-- What a scope tells about its function. -/
def functionNode (data : FunctionData) (line : Nat) (enclosing? : Option NodeId) (inner : Scope) :
    Node :=
  let data := { data with
    requiresActivation := inner.requiresActivation, checksThis := inner.checksThis }
  let n := Node.function data line
  let properties := n.properties.putIf .enclosingFunction (enclosing?.map .node)
  { n with properties := properties.put .vars (.texts inner.vars)
      |>.put .uses (.texts inner.uses)
      |>.put .localCount (.number (data.params.length + inner.vars.length : Nat))
      |>.put .functions (.nodes inner.functions) }

/-- A function, from the word that opens it to the brace that closes it. -/
def functionOf (g : Grammar) (role : FunctionRole) : Reading Tree := do
  let opening ← advance
  let name ← functionName role
  let _ ← expect .leftParen (.parenAfter .kwFunction)
  let params ← g.parameters
  let _ ← expect .rightParen .parenAfterParameters
  let brace ← expect .leftBrace (.braceBeforeBody "function")
  let id ← freshId
  let enclosing? := (← get).scope.function?
  let (body, inner) ← inFunction id (g.blockAfterBrace true brace.line "function")
  return .node id (functionNode { name, role, params } opening.line enclosing? inner) [body]

/-! ## Operands -/

def primary (g : Grammar) : Reading Tree := do
  if (← get).current.isSlash then rescan
  let t := (← get).current
  match t.tag with
  | .leftBracket => g.arrayLiteral
  | .leftBrace => g.objectLiteral
  | .leftParen => do
    let _ ← advance
    let inner ← g.expression false
    let _ ← expect .rightParen .parenInParenthetical
    return inner
  | .identifier => do
    let t ← advance
    warnOfKeyword t.shown t.line
    noteUse t.shown
    makeNode (.identifier t.shown t.line) []
  | .number => do
    let t ← advance
    makeNode (.number t.shown t.line) []
  | .string => do
    let t ← advance
    makeNode (.string t.shown t.line) []
  | .regExp => do
    let t ← advance
    makeNode (.regExp t.shown t.line) []
  | .primary => do
    let t ← advance
    let datum := t.datum.getD .nullValue
    if datum == .thisValue then modifyScope ({ · with checksThis := true })
    makeNode (.primary datum t.line) []
  | .reserved => fail (.reservedWord t.shown)
  | _ => unexpected

/-- The arguments of a call, with their parentheses. -/
def arguments (g : Grammar) : Reading (List Tree) := do
  let _ ← advance
  let args ← do
    if ← check .rightParen then pure []
    else g.itemsBetweenCommas (g.assignment false)
  let _ ← expect .rightParen .parenAfterArguments
  return args

/-- The name after a point; a reserved word will do. -/
def propertyName : Reading String := do
  let t := (← get).current
  match t.tag with
  | .identifier => return (← advance).shown
  | .reserved => do
    let t ← advance
    warn (.reservedPropertyName t.shown) t.line
    return t.shown
  | _ => fail (.missing .nameAfterDot)

/-- One more access or call behind an operand. -/
def access (g : Grammar) (allowCall : Bool) (object : Tree) : Reading (Turn Tree Tree) := do
  let t := (← get).current
  match t.tag with
  | .dot => do
    let t ← advance
    let name ← makeNode (.identifier (← propertyName) t.line) []
    return .again (← makeNode (.leaf .getProp t.line) [object, name])
  | .leftBracket => do
    let t ← advance
    let index ← g.expression false
    let _ ← expect .rightBracket .bracketInIndex
    return .again (← makeNode (.leaf .getElem t.line) [object, index])
  | .leftParen =>
    if allowCall then do
      let args ← g.arguments
      if object.data.calleeName? == some "eval" then needActivation
      return .again (← makeNode (.call .call object.data t.line) (object :: args))
    else return .done object
  | _ => return .done object

/-- An operand with the accesses and calls behind it. The callee of a `new` ends before the first
call, whose arguments are those of the `new`. -/
def memberOf (g : Grammar) (allowCall : Bool) : Reading Tree := do
  let t := (← get).current
  let object ←
    if t.tag == .kwNew then do
      let t ← advance
      let callee ← g.member false
      let args ← if ← check .leftParen then g.arguments else pure []
      makeNode (.call .kwNew callee.data t.line) (callee :: args)
    else if t.tag == .kwFunction then g.functionOf .expression
    else g.primary
  g.repeatTurns (g.access allowCall) object

/-! ## Operators -/

def isStep (t : Token) : Bool := t.tag == .increment || t.tag == .decrement

/-- An operand and perhaps a step behind it on the same line. -/
def steppedOperand (g : Grammar) : Reading Tree := do
  let operand ← g.memberOf true
  let t := (← get).current
  if isStep t && !t.newlineBefore then
    if operand.tag.isAssignable then
      let t ← advance
      makeNode (.step t.tag true t.line) [operand]
    else fail .badStepOperand
  else return operand

/-- The unary operator a token stands for. -/
def unaryOperator? (t : Token) : Option Tag :=
  match t.tag with
  | .unary => some (t.datum.getD .not)
  | .add => some .positive
  | .sub => some .negative
  | _ => none

def unaryOf (g : Grammar) : Reading Tree := do
  let t := (← get).current
  match unaryOperator? t with
  | some operator => do
    let _ ← advance
    let operand ← g.unary
    makeNode (.unary operator t.line) [operand]
  | none =>
    if isStep t then do
      let _ ← advance
      let operand ← g.memberOf true
      if operand.tag.isAssignable then makeNode (.step t.tag false t.line) [operand]
      else failAt t.line .badStepOperand
    else g.steppedOperand

/-- The tags of the node a binary operator makes. With `noIn`, the word `in` is no operator. -/
def binaryOperator? (noIn : Bool) (t : Token) : Option (Tag × Option Tag) :=
  match t.tag with
  | .kwInstanceOf => some (.relation, some .kwInstanceOf)
  | .kwIn => if noIn then none else some (.relation, some .kwIn)
  | .equality | .relation | .shift => some (t.tag, t.datum)
  | tag => if tag.binaryPrecedence?.isSome then some (tag, none) else none

/-- One more operator of a level and its right operand behind a left one. -/
def binaryTurn (noIn : Bool) (level : Nat) (operand : Reading Tree) (left : Tree) :
    Reading (Turn Tree Tree) := do
  match binaryOperator? noIn (← get).current with
  | some (tag, datum) =>
    if tag.binaryPrecedence? == some level then do
      let t ← advance
      let right ← operand
      return .again (← makeNode (.binary tag datum left.data right.data t.line) [left, right])
    else return .done left
  | none => return .done left

/-- Binary operations of a number of levels, counted from the one that binds most tightly. -/
def binaryOf (g : Grammar) (noIn : Bool) : Nat → Reading Tree
  | 0 => g.unaryOf
  | levels + 1 => do
    let operand := g.binaryOf noIn levels
    let left ← operand
    g.repeatTurns (binaryTurn noIn (Precedence.multiplicative - levels) operand) left

/-- The number of levels of binary operators. -/
def binaryLevels : Nat := Precedence.multiplicative + 1 - Precedence.or

def conditionalOf (g : Grammar) (noIn : Bool) : Reading Tree := do
  let condition ← g.binaryOf noIn binaryLevels
  if ← check .question then
    let t ← advance
    let yes ← g.assignment false
    let _ ← expect .colon .colonInConditional
    let no ← g.assignment noIn
    makeNode (.leaf .question t.line) [condition, yes, no]
  else return condition

def assignmentOf (g : Grammar) (noIn : Bool) : Reading Tree := do
  let target ← g.conditionalOf noIn
  if ← check .assign then
    if target.tag.isAssignable then
      let t ← advance
      let value ← g.assignment noIn
      makeNode (.assign t.datum target.data value.data t.line) [target, value]
    else fail .badAssignTarget
  else return target

/-- One more comma and the assignment behind it. -/
def sequenceTurn (assignment : Reading Tree) (left : Tree) : Reading (Turn Tree Tree) := do
  if ← check .comma then
    let t ← advance
    let right ← assignment
    return .again (← makeNode (.leaf .comma t.line) [left, right])
  else return .done left

/-- Assignments in a sequence. With `noIn`, the word `in` ends the expression. -/
def expressionOf (g : Grammar) (noIn : Bool) : Reading Tree := do
  let first ← g.assignmentOf noIn
  g.repeatTurns (sequenceTurn (g.assignmentOf noIn)) first

end Grammar
end ScriptPress
