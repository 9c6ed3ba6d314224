import ScriptPress.Tree.Forest

/-! # Tree building

Builds a forest node by node, with the annotations that the nodes' parts imply. The jumps to each
statement are collected on the way and put on their targets at the end.
-/
namespace ScriptPress

structure Builder where
  forest : Forest := {}
  jumps : List (NodeId × NodeId) := []
  deriving Repr, Inhabited

namespace Builder

def node (b : Builder) (id : NodeId) : Node := (b.forest.node? id).getD default

def isNumber (b : Builder) (id : NodeId) : Bool := (b.node id).isNumber

/-- Adds a node without children. -/
def leaf (b : Builder) (n : Node) : NodeId × Builder :=
  let (id, forest) := b.forest.alloc n
  (id, { b with forest })

def addChild (b : Builder) (parent child : NodeId) : Builder :=
  { b with forest := b.forest.pushBack parent child }

/-- Adds a node over some children. -/
def parent (b : Builder) (n : Node) (children : List NodeId) : NodeId × Builder :=
  let (id, b) := b.leaf n
  (id, children.foldl (·.addChild id) b)

def unary (b : Builder) (operator : Tag) (operand : NodeId) (line : Nat) : NodeId × Builder :=
  b.parent (.unary operator line) [operand]

def step (b : Builder) (tag : Tag) (operand : NodeId) (after : Bool) (line : Nat) :
    NodeId × Builder :=
  b.parent (.step tag after line) [operand]

def binary (b : Builder) (tag : Tag) (datum : Option Tag) (left right : NodeId) (line : Nat) :
    NodeId × Builder :=
  b.parent (.binary tag datum (b.node left) (b.node right) line) [left, right]

def assign (b : Builder) (operator : Option Tag) (target value : NodeId) (line : Nat) :
    NodeId × Builder :=
  b.parent (.assign operator (b.node target) (b.node value) line) [target, value]

def conditional (b : Builder) (condition yes no : NodeId) (line : Nat) : NodeId × Builder :=
  b.parent (.leaf .question line) [condition, yes, no]

def call (b : Builder) (tag : Tag) (callee : NodeId) (args : List NodeId) (line : Nat) :
    NodeId × Builder :=
  b.parent (.call tag (b.node callee) line) (callee :: args)

def getProp (b : Builder) (object : NodeId) (name : String) (line : Nat) : NodeId × Builder :=
  let (name, b) := b.leaf (.identifier name line)
  b.parent (.leaf .getProp line) [object, name]

def getElem (b : Builder) (object index : NodeId) (line : Nat) : NodeId × Builder :=
  b.parent (.leaf .getElem line) [object, index]

/-- Adds a break or continue and remembers it for its target. -/
def jump (b : Builder) (tag : Tag) (label? : Option String) (target : NodeId) (line : Nat) :
    NodeId × Builder :=
  let (id, b) := b.leaf (.jump tag label? target line)
  let b := match label? with
    | some label =>
      let (name, b) := b.leaf (.identifier label line)
      b.addChild id name
    | none => b
  (id, { b with jumps := b.jumps ++ [(target, id)] })

def label (b : Builder) (name : String) (line : Nat) : NodeId × Builder :=
  let (id, b) := b.leaf (.label name line)
  let (nameId, b) := b.leaf (.identifier name line)
  (id, b.addChild id nameId)

/-- Notes the clauses of a finished switch on its node; its first child is no clause. -/
def closeSwitch (b : Builder) (id : NodeId) : Builder :=
  let clauses := (b.forest.children id).drop 1
  let cases := clauses.filter fun c => (b.node c).tag == .kwCase
  let default? := (clauses.filter fun c => (b.node c).tag == .kwDefault).getLast?
  { b with forest := b.forest.mapNode id fun n =>
      let n := n.put .cases (.nodes cases)
      { n with properties := n.properties.putIf .defaultClause (default?.map .node) } }

/-- Puts the jumps on their targets, each list in the order of the jumps. -/
def finish (b : Builder) : Forest :=
  (b.jumps.map (·.1)).eraseDups.foldl (fun f target =>
    let jumps := (b.jumps.filter (·.1 == target)).map (·.2)
    f.mapNode target (·.put .jumps (.nodes jumps))) b.forest

end Builder
end ScriptPress
