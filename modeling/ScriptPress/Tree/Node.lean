import ScriptPress.Token.Tag
import ScriptPress.Tree.Property

/-! # Nodes

What a node is apart from its place in a tree, and how nodes of each sort are made: their tags,
their payloads and what their parts tell about them. An expression is marked as a number when its
operator or its parts allow no other value.
-/
namespace ScriptPress

/-- How a function stands in the code around it. A named function expression may stand where a
statement is expected. -/
inductive FunctionRole where
  | statement | expression | expressionStatement
  deriving Repr, DecidableEq, Inhabited

namespace FunctionRole

def all : List FunctionRole := [.statement, .expression, .expressionStatement]

def name : FunctionRole → String
  | statement => "Statement"
  | expression => "Expression"
  | expressionStatement => "ExpressionStatement"

def ofName? (name : String) : Option FunctionRole := all.find? (·.name == name)

end FunctionRole

/-- A function requires an activation record when its body uses `eval`, `arguments` or `with`. -/
structure FunctionData where
  name : Option String
  role : FunctionRole
  params : List String := []
  requiresActivation : Bool := false
  checksThis : Bool := false
  deriving Repr, DecidableEq, Inhabited

/-- What a node carries. Literals keep their text as written. -/
inductive Payload where
  | none
  | number (text : String)
  | text (text : String)
  | function (data : FunctionData)
  deriving Repr, DecidableEq, Inhabited

structure Node where
  tag : Tag
  datum : Option Tag := none
  line : Nat
  payload : Payload := .none
  properties : Properties := {}
  deriving Repr, DecidableEq, Inhabited

namespace Node

/-- The datum when there is one, the tag otherwise. -/
def operator (n : Node) : Tag := n.datum.getD n.tag

/-- The text of a literal or a name. -/
def data? (n : Node) : Option String :=
  match n.payload with
  | .number s | .text s => some s
  | _ => none

def function? (n : Node) : Option FunctionData :=
  match n.payload with
  | .function f => some f
  | _ => none

def put (n : Node) (kind : PropertyKind) (value : PropertyValue) : Node :=
  { n with properties := n.properties.put kind value }

def mark (n : Node) (kind : PropertyKind) (holds : Bool) : Node :=
  { n with properties := n.properties.mark kind holds }

def isNumber (n : Node) : Bool := n.properties.flag .isNumber

/-! ## Leaves -/

def leaf (tag : Tag) (line : Nat) : Node := { tag, line }

def operation (tag : Tag) (datum : Option Tag) (line : Nat) : Node := { tag, datum, line }

def identifier (name : String) (line : Nat) : Node :=
  { tag := .identifier, line, payload := .text name }

def number (text : String) (line : Nat) : Node :=
  { tag := .number, line, payload := .number text : Node }.mark .isNumber true

def string (text : String) (line : Nat) : Node := { tag := .string, line, payload := .text text }

def regExp (text : String) (line : Nat) : Node := { tag := .regExp, line, payload := .text text }

def primary (datum : Tag) (line : Nat) : Node := { tag := .primary, datum := some datum, line }

def script (source : String) (line : Nat) : Node :=
  (leaf .script line).put .sourceName (.text source)

def function (data : FunctionData) (line : Nat) : Node :=
  { tag := .kwFunction, line, payload := .function data }

/-! ## Operations -/

/-- The unary operators with a numeric value. -/
def isNumericUnary (operator : Tag) : Bool :=
  operator == .negative || operator == .positive || operator == .bitNot

def unary (operator : Tag) (line : Nat) : Node :=
  (operation .unary (some operator) line).mark .isNumber (isNumericUnary operator)

/-- An increment or decrement, before or after its operand. -/
def step (tag : Tag) (after : Bool) (line : Nat) : Node :=
  ((leaf tag line).mark .isNumber true).mark .postfixForm after

/-- The binary operators with a numeric value whatever their operands. -/
def isNumericBinary (tag : Tag) : Bool :=
  match tag with
  | .sub | .mul | .div | .mod | .bitOr | .bitXor | .bitAnd | .shift => true
  | _ => false

def binary (tag : Tag) (datum : Option Tag) (left right : Node) (line : Nat) : Node :=
  (operation tag datum line).mark .isNumber
    (isNumericBinary tag || (tag == .add && left.isNumber && right.isNumber))

/-- A plain assignment when there is no operator, a compound one otherwise. -/
def assign (operator : Option Tag) (target value : Node) (line : Nat) : Node :=
  let numeric := match operator with
    | some .add => target.isNumber && value.isNumber
    | some _ => true
    | none => value.isNumber
  (operation .assign operator line).mark .isNumber numeric

/-- The name a callee consists of. -/
def calleeName? (callee : Node) : Option String :=
  if callee.tag == .identifier then callee.data? else none

/-- A call or a `new`. A call through a plain name is direct, one of `eval` is special too. -/
def call (tag : Tag) (callee : Node) (line : Nat) : Node :=
  let name? := if tag == .call then calleeName? callee else none
  ((leaf tag line).mark .directCall name?.isSome).mark .specialCall (name? == some "eval")

/-- A break or continue that goes to a statement, by its label if there is one. -/
def jump (tag : Tag) (label? : Option String) (target : NodeId) (line : Nat) : Node :=
  let n := leaf tag line
  let n := { n with properties := n.properties.putIf .label (label?.map .text) }
  n.put .target (.node target)

def label (name : String) (line : Nat) : Node := (leaf .label line).put .label (.text name)

/-- A line of a tree dump: tag, datum and payload. Lines and properties are left out, so that
scripts of one shape have one dump. -/
def dump (n : Node) : List Char :=
  let datum := n.datum.elim [] fun d => ' ' :: d.dumpName.toList
  let payload := match n.payload with
    | .none => []
    | .number s | .text s => ' ' :: s.toList
    | .function f =>
      ' ' :: (f.name.getD "").toList ++ '(' :: (",".intercalate f.params).toList ++ [')']
  n.tag.dumpName.toList ++ datum ++ payload

end Node
end ScriptPress
