import ScriptPress.Tree.Basic

/-! # Precedence

How tightly operators bind. Reading and writing agree on these levels: a binary operator of a level
takes operands of the level on its left and of the next one on its right.
-/
namespace ScriptPress

namespace Precedence

abbrev comma : Nat := 1
abbrev assignment : Nat := 2
abbrev conditional : Nat := 3
abbrev or : Nat := 4
abbrev and : Nat := 5
abbrev bitOr : Nat := 6
abbrev bitXor : Nat := 7
abbrev bitAnd : Nat := 8
abbrev equality : Nat := 9
abbrev relation : Nat := 10
abbrev shift : Nat := 11
abbrev additive : Nat := 12
abbrev multiplicative : Nat := 13
abbrev unary : Nat := 14
abbrev postfixStep : Nat := 15
abbrev member : Nat := 16
abbrev primary : Nat := 18

end Precedence

/-- The level of a binary operator. -/
def Tag.binaryPrecedence? : Tag → Option Nat
  | .or => some Precedence.or
  | .and => some Precedence.and
  | .bitOr => some Precedence.bitOr
  | .bitXor => some Precedence.bitXor
  | .bitAnd => some Precedence.bitAnd
  | .equality => some Precedence.equality
  | .relation => some Precedence.relation
  | .shift => some Precedence.shift
  | .add | .sub => some Precedence.additive
  | .mul | .div | .mod => some Precedence.multiplicative
  | _ => none

/-- The level of an expression's outermost operator. -/
def Node.precedence (n : Node) : Nat :=
  match n.tag with
  | .comma => Precedence.comma
  | .assign => Precedence.assignment
  | .question => Precedence.conditional
  | .unary => Precedence.unary
  | .increment | .decrement =>
    if n.properties.flag .postfixForm then Precedence.postfixStep else Precedence.unary
  | .call | .kwNew | .getProp | .getElem => Precedence.member
  | t => t.binaryPrecedence?.getD Precedence.primary

/-- The expressions that can stand on the left of an assignment. -/
def Tag.isAssignable (t : Tag) : Bool := t == .identifier || t == .getProp || t == .getElem

namespace Tree

mutual

/-- Whether an expression is worth a statement of its own. Of a sequence or a logical operation the
last part decides; of a conditional, both branches. -/
def hasEffect : Tree → Bool
  | node _ data children =>
    match data.tag with
    | .assign | .call | .kwNew | .increment | .decrement | .kwFunction => true
    | .unary => data.datum == some .delete
    | .comma | .or | .and => lastHasEffect children
    | .question =>
      match children with
      | [] => true
      | _ :: branches => allHaveEffect branches
    | _ => false

def lastHasEffect : List Tree → Bool
  | [] => false
  | [t] => hasEffect t
  | _ :: rest => lastHasEffect rest

def allHaveEffect : List Tree → Bool
  | [] => true
  | t :: rest => hasEffect t && allHaveEffect rest

end

/-- Whether the chain of member accesses down from a callee holds a call. -/
def containsCall : Tree → Bool
  | node _ data children =>
    match data.tag with
    | .call => true
    | .getProp | .getElem =>
      match children with
      | [] => false
      | object :: _ => containsCall object
    | _ => false

end Tree
end ScriptPress
