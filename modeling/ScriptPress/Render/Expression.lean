import ScriptPress.Render.Part
import ScriptPress.Render.StringText

/-! # Writing expressions

An expression that binds less tightly than its place asks for is written in parentheses. So is one
that would be taken for something else: an `in` where a loop header would end at it, a function or
an object at the head of a statement, a call where a `new` would take its arguments, and a whole
number before the point of a member access.
-/
namespace ScriptPress
namespace Render

/-- A number of decimal digits alone, which a point after it would become part of. -/
def isWholeNumber (p : Node) : Bool :=
  p.tag == .number && ((p.data?.getD "").toList.all Text.isDigit)

def isInOperation (n : Node) : Bool := n.tag == .relation && n.datum == some .kwIn

/-- Functions and objects begin with a word or a brace of another statement. -/
def opensOtherStatement (n : Node) : Bool := n.tag == .kwFunction || n.tag == .objectLit

/-- Whether an expression is written in parentheses at its place. -/
def needsParens (t : Tree) (place : Place) : Bool :=
  let tooLoose := match place.use with
    | .operand level => t.data.precedence < level
    | .object => t.data.precedence < Precedence.member || isWholeNumber t.data
    | .callee =>
      t.data.precedence < Precedence.member || isWholeNumber t.data || t.containsCall
  tooLoose || (place.leads && opensOtherStatement t.data) || (place.noIn && isInOperation t.data)

/-- The arguments of a call with their parentheses. -/
def argumentSteps (args : List Part) : List WriterStep :=
  .token "(" :: separated (args.map (·.enclosed Precedence.assignment)) ++ [.token ")"]

/-- The elements of an array after the first, each with the comma before it. -/
def elementSteps : List Part → List WriterStep
  | [] => []
  | e :: rest =>
    (if e.tag == .empty then [.token ","]
      else .token "," :: .space :: e.enclosed Precedence.assignment) ++ elementSteps rest

/-- An array. A hole at the end takes a comma of its own. -/
def arraySteps (elements : List Part) : List WriterStep :=
  let inner := match elements with
    | [] => []
    | e :: rest =>
      (if e.tag == .empty then [] else e.enclosed Precedence.assignment) ++ elementSteps rest
  let last := if elements.getLast?.any (·.tag == .empty) then [WriterStep.token ","] else []
  .token "[" :: inner ++ last ++ [.token "]"]

/-- The keys and values of an object. -/
def propertySteps : List Part → List (List WriterStep)
  | [] => []
  | [key] => [[.token key.text, .token ":", .space]]
  | key :: value :: rest =>
    (.token key.text :: .token ":" :: .space :: value.enclosed Precedence.assignment)
      :: propertySteps rest

def objectSteps (parts : List Part) : List WriterStep :=
  .token "\x7b" :: separated (propertySteps parts) ++ [.token "\x7d"]

/-- An operator between its operands, with spaces around it. -/
def infixed (left : List WriterStep) (operator : String) (right : List WriterStep) :
    List WriterStep :=
  left ++ .space :: .token operator :: .space :: right

/-- An expression without parentheses around it. The leading part of a leading expression leads
too. -/
def bareExpr (o : RenderOptions) (n : Node) (children : List Part) (place : Place) :
    List WriterStep :=
  let text := n.data?.getD ""
  let lead (p : Part) (use : Use) : List WriterStep :=
    p.expr { use, noIn := place.noIn, leads := place.leads }
  let part (p : Part) (level : Nat) : List WriterStep := p.operand level place.noIn
  match n.tag, children with
  | .identifier, _ => [.token text]
  | .number, _ => [.number text]
  | .string, _ => [.token (if o.compact then withoutContinuations text else text)]
  | .regExp, _ => [.regExp text]
  | .primary, _ => [.token n.operator.spelling]
  | .kwFunction, _ => functionSteps n children
  | .arrayLit, _ => arraySteps children
  | .objectLit, _ => objectSteps children
  | .unary, [] => [.token n.operator.spelling]
  | .unary, operand :: _ => .token n.operator.spelling :: part operand Precedence.unary
  | .increment, operand :: _ | .decrement, operand :: _ =>
    if n.properties.flag .postfixForm then
      lead operand (.operand Precedence.member) ++ [.token n.tag.spelling]
    else .token n.tag.spelling :: part operand Precedence.member
  | .assign, target :: value :: _ =>
    let operator := (n.datum.elim "" Tag.spelling) ++ "="
    infixed (lead target (.operand Precedence.member)) operator (part value Precedence.assignment)
  | .question, condition :: yes :: no :: _ =>
    infixed (lead condition (.operand Precedence.or)) "?"
      (infixed (part yes Precedence.assignment) ":" (part no Precedence.assignment))
  | .comma, left :: right :: _ =>
    lead left (.operand Precedence.comma)
      ++ .token "," :: .space :: part right Precedence.assignment
  | .call, callee :: args => lead callee .object ++ argumentSteps args
  | .kwNew, callee :: args =>
    let written := if args.isEmpty && place.use matches .operand _ then [] else argumentSteps args
    .token "new" :: callee.expr { use := .callee, noIn := place.noIn } ++ written
  | .getProp, object :: name :: _ =>
    lead object .object ++ [.token ".", .token name.text]
  | .getElem, object :: index :: _ =>
    lead object .object ++ .token "[" :: index.enclosed Precedence.comma ++ [.token "]"]
  | .assign, _ | .question, _ | .comma, _ | .call, _ | .kwNew, _ | .getProp, _ | .getElem, _ =>
    [.missing]
  | tag, parts =>
    match tag.binaryPrecedence?, parts with
    | some level, left :: right :: _ =>
      infixed (lead left (.operand level)) n.operator.spelling (part right (level + 1))
    | some _, _ => [.missing]
    | none, _ => []

/-- An expression at its place. Within parentheses `in` is free. -/
def exprSteps (o : RenderOptions) (t : Tree) (children : List Part) (place : Place) :
    List WriterStep :=
  if needsParens t place then
    let inner := { place with noIn := false, use := Use.operand Precedence.comma }
    .token "(" :: bareExpr o t.data children inner ++ [.token ")"]
  else bareExpr o t.data children place

end Render
end ScriptPress
