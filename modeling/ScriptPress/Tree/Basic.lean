import ScriptPress.Tree.Node

/-! # Script trees

A tree of nodes. Nodes have identities, by which properties refer to other nodes of the tree.
-/
namespace ScriptPress

inductive Tree where
  | node (id : NodeId) (data : Node) (children : List Tree)
  deriving Repr, Inhabited

namespace Tree

def id : Tree → NodeId
  | node id _ _ => id

def data : Tree → Node
  | node _ data _ => data

def children : Tree → List Tree
  | node _ _ children => children

def tag (t : Tree) : Tag := t.data.tag

def line (t : Tree) : Nat := t.data.line

def mapData (f : Node → Node) : Tree → Tree
  | node id data children => node id (f data) children

def put (t : Tree) (kind : PropertyKind) (value : PropertyValue) : Tree :=
  t.mapData (·.put kind value)

mutual

/-- The lines of a tree dump, each node two columns right of its parent. -/
def dumpAt (depth : Nat) : Tree → List Char
  | node _ data children =>
    List.replicate (2 * depth) ' ' ++ data.dump ++ '\n' :: dumpAllAt (depth + 1) children

def dumpAllAt (depth : Nat) : List Tree → List Char
  | [] => []
  | t :: rest => dumpAt depth t ++ dumpAllAt depth rest

end

/-- The dump of a tree's shape. -/
def dump (t : Tree) : String := String.ofList (dumpAt 0 t)

mutual

/-- The nodes of a tree with their trees below them, parents before children. -/
def preorder : Tree → List Tree
  | node id data children => node id data children :: preorderAll children

def preorderAll : List Tree → List Tree
  | [] => []
  | t :: rest => preorder t ++ preorderAll rest

end

end Tree
end ScriptPress
