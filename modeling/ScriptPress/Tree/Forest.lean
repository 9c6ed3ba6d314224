import ScriptPress.Tree.Basic

/-! # Linked forests

A store of nodes under construction. A node knows its first and its last child and the sibling
after it, so that children can be added at both ends, after another child, and taken out again. A
node is in one list of children at most.
-/
namespace ScriptPress

structure Forest.Slot where
  data : Node
  first : Option NodeId := none
  last : Option NodeId := none
  next : Option NodeId := none
  deriving Repr, Inhabited

structure Forest where
  slots : Array Forest.Slot := #[]
  deriving Repr, Inhabited

namespace Forest

def size (f : Forest) : Nat := f.slots.size

def slot? (f : Forest) (id : NodeId) : Option Slot := f.slots[id.index]?

def node? (f : Forest) (id : NodeId) : Option Node := (f.slot? id).map (·.data)

def first? (f : Forest) (id : NodeId) : Option NodeId := (f.slot? id).bind (·.first)

def last? (f : Forest) (id : NodeId) : Option NodeId := (f.slot? id).bind (·.last)

def next? (f : Forest) (id : NodeId) : Option NodeId := (f.slot? id).bind (·.next)

def modify (f : Forest) (id : NodeId) (g : Slot → Slot) : Forest :=
  ⟨f.slots.modify id.index g⟩

def setFirst (f : Forest) (id : NodeId) (link : Option NodeId) : Forest :=
  f.modify id ({ · with first := link })

def setLast (f : Forest) (id : NodeId) (link : Option NodeId) : Forest :=
  f.modify id ({ · with last := link })

def setNext (f : Forest) (id : NodeId) (link : Option NodeId) : Forest :=
  f.modify id ({ · with next := link })

def mapNode (f : Forest) (id : NodeId) (g : Node → Node) : Forest :=
  f.modify id fun s => { s with data := g s.data }

/-- Adds a node that is in no list and has no children. -/
def alloc (f : Forest) (n : Node) : NodeId × Forest :=
  (⟨f.size⟩, ⟨f.slots.push { data := n }⟩)

/-- The nodes from a link on, a number at most. -/
def chain (f : Forest) : Nat → Option NodeId → List NodeId
  | 0, _ => []
  | _ + 1, none => []
  | fuel + 1, some id => id :: chain f fuel (f.next? id)

/-- The children of a node in order. No list is longer than the store. -/
def children (f : Forest) (parent : NodeId) : List NodeId := f.chain f.size (f.first? parent)

/-- Adds a node as the last child. -/
def pushBack (f : Forest) (parent child : NodeId) : Forest :=
  let f' := match f.last? parent with
    | some last => f.setNext last (some child)
    | none => f.setFirst parent (some child)
  f'.setLast parent (some child)

/-- Adds a node as the first child. -/
def pushFront (f : Forest) (parent child : NodeId) : Forest :=
  let f' := (f.setNext child (f.first? parent)).setFirst parent (some child)
  if (f.last? parent).isNone then f'.setLast parent (some child) else f'

/-- Adds a node after a child of the parent. -/
def insertAfter (f : Forest) (parent child sibling : NodeId) : Forest :=
  let f' := (f.setNext child (f.next? sibling)).setNext sibling (some child)
  if f.last? parent == some sibling then f'.setLast parent (some child) else f'

/-- The child before another one, if that is not the first. -/
def childBefore? (f : Forest) (parent child : NodeId) : Option NodeId :=
  ((f.children parent).takeWhile (· != child)).getLast?

/-- Takes a child out of its list; nothing happens when it is none of the parent's. -/
def remove? (f : Forest) (parent child : NodeId) : Option Forest :=
  if (f.children parent).contains child then
    let next := f.next? child
    let before := f.childBefore? parent child
    let f' := match before with
      | some b => f.setNext b next
      | none => f.setFirst parent next
    let f' := if f.last? parent == some child then f'.setLast parent before else f'
    some (f'.setNext child none)
  else none

/-- Puts a node in the place of a child; nothing happens when that is none of the parent's. -/
def replace? (f : Forest) (parent child other : NodeId) : Option Forest :=
  if (f.children parent).contains child then
    let next := f.next? child
    let f' := f.setNext other next
    let f' := match f.childBefore? parent child with
      | some b => f'.setNext b (some other)
      | none => f'.setFirst parent (some other)
    let f' := if f.last? parent == some child then f'.setLast parent (some other) else f'
    some (f'.setNext child none)
  else none

/-- A copy of a node without children or sibling. -/
def clone (f : Forest) (id : NodeId) : NodeId × Forest :=
  f.alloc ((f.node? id).getD default)

/-- The tree below a node, a number of levels deep at most. -/
def treeAt (f : Forest) : Nat → NodeId → Tree
  | 0, id => .node id ((f.node? id).getD default) []
  | fuel + 1, id => .node id ((f.node? id).getD default) ((f.children id).map (f.treeAt fuel))

/-- The tree below a node. No tree is deeper than the store is large. -/
def tree (f : Forest) (root : NodeId) : Tree := f.treeAt f.size root

end Forest
end ScriptPress
