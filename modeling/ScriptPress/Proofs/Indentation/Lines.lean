import ScriptPress.Layout
import ScriptPress.Proofs.Shape.Outline

/-! # The lines of a script

Which statements of a tree begin a line of expanded output, and how deep they stand. Depth grows by
one for every block, for the clauses of a switch and for a body without braces; a block that is a
body stays on the line of its keyword, and so does an `if` behind an `else`. What stands in the head
of a loop, a `var` there too, is part of the loop and begins no line of its own.
-/
namespace ScriptPress

/-- The place of a node below its parent: within an expression or a head, in a list, as a body, as
the branch of an else, as the block of a function or of a try, as a clause of a switch or as one of
a try. -/
inductive Position where
  | operand | listed | body | otherwise | block | clause | handler
  deriving Repr, DecidableEq

/-- Whether a node begins a line there. -/
def Position.beginsLine : Position → Tag → Bool
  | .listed, _ | .clause, _ => true
  | .body, tag => tag != .block
  | .otherwise, tag => tag != .block && tag != .kwIf
  | _, _ => false

/-- How deep a node stands there, with its parent at a depth. -/
def Position.depth : Position → Tag → Nat → Nat
  | .clause, _, d => d + 1
  | .body, tag, d => if tag == .block then d else d + 1
  | .otherwise, tag, d => if tag == .block || tag == .kwIf then d else d + 1
  | _, _, d => d

/-- The places of the children of a node, of which there are `n`; those not listed are operands. -/
def Tag.positions (tag : Tag) (n : Nat) : List Position :=
  match tag with
  | .script | .block | .kwDefault => List.replicate n .listed
  | .kwCase => .operand :: List.replicate n .listed
  | .kwSwitch => .operand :: List.replicate n .clause
  | .kwIf => [.operand, .body, .otherwise]
  | .kwWhile | .kwWith => [.operand, .body]
  | .kwDo => [.body, .operand]
  | .kwFor => [.operand, .operand, .operand, .body]
  | .forIn => [.operand, .operand, .body]
  | .label => [.operand, .listed]
  | .kwTry => .block :: List.replicate n .handler
  | .kwCatch => List.replicate (n - 1) .operand ++ [.block]
  | .kwFinally | .kwFunction => [.block]
  | _ => []

/-- A statement, or a clause of a switch, that begins a line, and its depth. -/
structure Indented where
  tree : Tree
  depth : Nat

namespace Indented

/-- Labels and clauses stand left of the statements around them. -/
def setBack (m : Indented) : Bool :=
  m.tree.tag == .label || m.tree.tag == .kwCase || m.tree.tag == .kwDefault

/-- The column in which the line begins. -/
def column (layout : Layout) (m : Indented) : Nat :=
  let column := layout.offset + layout.indent * m.depth
  if m.setBack then column - layout.setback else column

end Indented

namespace Tree

mutual

/-- What begins a line in a tree at a place, below a parent at depth `d`. -/
def indentedAt (d : Nat) (p : Position) : Tree → List Indented
  | .node id data children =>
    let depth := p.depth data.tag d
    let below := indentedUnder (if data.tag == .block then depth + 1 else depth)
      (data.tag.positions children.length) children
    if p.beginsLine data.tag then ⟨.node id data children, depth⟩ :: below else below

def indentedUnder (d : Nat) : List Position → List Tree → List Indented
  | p :: ps, t :: ts => indentedAt d p t ++ indentedUnder d ps ts
  | [], t :: ts => indentedAt d .operand t ++ indentedUnder d [] ts
  | _, [] => []

end

/-- What begins a line in a script, in the order of the text. -/
def indented (t : Tree) : List Indented :=
  indentedUnder 0 (t.tag.positions t.children.length) t.children

variable {d : Nat} {p : Position} {id : NodeId} {data : Node}

@[simp] theorem indentedUnder_nil (ps : List Position) : indentedUnder d ps [] = [] := by
  cases ps <;> rfl

@[simp] theorem indentedUnder_cons (ps : List Position) (t : Tree) (ts : List Tree) :
    indentedUnder d (p :: ps) (t :: ts) = indentedAt d p t ++ indentedUnder d ps ts := rfl

/-- Children without a place of their own are operands. -/
theorem indentedUnder_operands (ts : List Tree) :
    indentedUnder d [] ts = ts.flatMap (indentedAt d .operand) := by
  induction ts with
  | nil => rfl
  | cons t ts ih => rw [indentedUnder, ih, List.flatMap_cons]

/-- Children that all have one place. -/
theorem indentedUnder_replicate {n : Nat} {ts : List Tree} (h : ts.length ≤ n) :
    indentedUnder d (List.replicate n p) ts = ts.flatMap (indentedAt d p) := by
  induction ts generalizing n with
  | nil => rw [indentedUnder_nil, List.flatMap_nil]
  | cons t ts ih =>
    cases n with
    | zero => cases h
    | succ n =>
      rw [List.replicate_succ, indentedUnder_cons, ih (Nat.le_of_succ_le_succ h),
        List.flatMap_cons]

/-- What begins a line in what a node at depth `d` consists of. -/
def indentedIn (d : Nat) (t : Tree) : List Indented :=
  indentedUnder (if t.tag == .block then d + 1 else d) (t.tag.positions t.children.length)
    t.children

theorem indentedAt_eq (t : Tree) : indentedAt d p t
    = (if p.beginsLine t.tag then [⟨t, p.depth t.tag d⟩] else [])
      ++ indentedIn (p.depth t.tag d) t := by
  cases t with
  | node id data children =>
    have htag : (node id data children).tag = data.tag := rfl
    rw [indentedAt, htag, indentedIn, htag]
    split <;> rfl

/-- What begins a line in a node depends on its core. -/
theorem indentedIn_node {core : Core} (h : data.core = core) (hblock : core.tag ≠ .block)
    (ts : List Tree) :
    indentedIn d (.node id data ts) = indentedUnder d (core.tag.positions ts.length) ts := by
  have htag : (node id data ts).tag = core.tag := congrArg Core.tag h
  rw [indentedIn, htag, if_neg (by simpa using hblock)]
  rfl

/-- In a block the statements stand one level deeper. -/
theorem indentedIn_block (h : data.tag = .block) (ts : List Tree) :
    indentedIn d (.node id data ts) = ts.flatMap (indentedAt (d + 1) .listed) := by
  have htag : (node id data ts).tag = .block := h
  rw [indentedIn, htag]
  exact indentedUnder_replicate le_rfl

/-- A leaf within an expression begins no line. -/
theorem indentedAt_leaf (id : NodeId) (data : Node) :
    indentedAt d .operand (.node id data []) = [] := by
  rw [indentedAt_eq, indentedIn]
  exact indentedUnder_nil _

end Tree
end ScriptPress
