import ScriptPress.Render.Writer
import ScriptPress.Tree.Precedence

/-! # Parts

A part is a subtree together with the ways it can be written: as an expression, in the place its
parent has for it, or as a statement, in the role it has there. What is written is a list of
instructions for the writer. Parentheses follow from precedence alone.
-/
namespace ScriptPress

/-- How a script is written. -/
structure RenderOptions where
  compact : Bool
  layout : Layout := {}
  comments : Bool := false
  deriving Repr, DecidableEq, Inhabited

namespace RenderOptions

def compactForm : RenderOptions where
  compact := true
  layout := Layout.flat

def expanded (layout : Layout) (comments : Bool) : RenderOptions where
  compact := false
  layout := layout
  comments := comments

/-- Comments are written in expanded output only. -/
def writesComments (o : RenderOptions) : Bool := o.comments && !o.compact

end RenderOptions

namespace Render

/-- What an expression is to its parent: an operand of at least a level, the object of a member
access or the callee of a call, or the callee of a `new`. -/
inductive Use where
  | operand (level : Nat)
  | object
  | callee
  deriving Repr, DecidableEq

/-- The place of an expression. With `noIn`, the operator `in` needs parentheses; an expression
that leads a statement needs them when it begins with a word or brace of another statement. -/
structure Place where
  use : Use
  noIn : Bool := false
  leads : Bool := false
  deriving Repr, DecidableEq

/-- What a statement or a part of one is to its parent: one of a list, perhaps the first; the body
of a compound statement; the branch of an else; a block; a clause of a switch, perhaps the first; a
clause of a try; the first part of a loop header; or a declared variable. -/
inductive Role where
  | listed (first : Bool)
  | body
  | otherwise
  | block
  | switchClause (first : Bool)
  | tryClause
  | loopStart
  | declared (noIn : Bool)
  deriving Repr, DecidableEq

structure Part where
  tree : Tree
  expr : Place → List WriterStep
  statement : Role → List WriterStep

namespace Part

def data (p : Part) : Node := p.tree.data

def tag (p : Part) : Tag := p.data.tag

def text (p : Part) : String := p.data.data?.getD ""

/-- The part as an operand. -/
def operand (p : Part) (level : Nat) (noIn : Bool) : List WriterStep :=
  p.expr { use := .operand level, noIn }

/-- The part in parentheses or brackets, where `in` is free. -/
def enclosed (p : Part) (level : Nat) : List WriterStep := p.operand level false

end Part

/-- Items with a comma and a space between them. -/
def separated : List (List WriterStep) → List WriterStep
  | [] => []
  | [item] => item
  | item :: rest => item ++ .token "," :: .space :: separated rest

/-- A keyword and the opening parenthesis after it. -/
def headed (keyword : String) : List WriterStep := [.token keyword, .space, .token "("]

/-! ## Comments -/

def commentSteps (o : RenderOptions) (kind : PropertyKind) (n : Node) : List WriterStep :=
  if o.writesComments then (n.properties.texts kind).map .comment else []

def leadingComments (o : RenderOptions) (n : Node) : List WriterStep :=
  commentSteps o .comments n

def trailingComments (o : RenderOptions) (n : Node) : List WriterStep :=
  commentSteps o .trailingComments n

/-! ## Blocks and functions -/

/-- Statements in a list. -/
def listed : List Part → List WriterStep
  | [] => []
  | first :: rest =>
    first.statement (.listed true) ++ rest.flatMap fun p => p.statement (.listed false)

/-- What stands between the braces of a block, and the closing brace. -/
def blockRest (o : RenderOptions) (n : Node) (statements : List Part) : List WriterStep :=
  listed statements ++ trailingComments o n ++ [.outdent, .newline, .token "\x7d"]

def blockSteps (o : RenderOptions) (n : Node) (statements : List Part) : List WriterStep :=
  .token "\x7b" :: .indent :: blockRest o n statements

/-- A block as a body. The comments before its brace go inside. -/
def bodySteps (o : RenderOptions) (n : Node) (statements : List Part) : List WriterStep :=
  .token "\x7b" :: .indent :: leadingComments o n ++ blockRest o n statements

/-- A function with its name, its parameters and its body. -/
def functionSteps (n : Node) (children : List Part) : List WriterStep :=
  match n.function? with
  | none => []
  | some f =>
    let name := match f.name with
      | some name => WriterStep.token name
      | none => .space
    let body := match children with
      | body :: _ => body.statement .block
      | [] => [.token "\x7b", .token "\x7d"]
    .token "function" :: name :: .token "(" :: separated (f.params.map fun p => [.token p])
      ++ .token ")" :: .space :: body

end Render
end ScriptPress
