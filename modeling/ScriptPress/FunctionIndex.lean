import ScriptPress.Render.Statement
import ScriptPress.Diagnostic.Failure

/-! # The functions of a script

Every function of a script, nested ones included, numbered in the order of the text, so that each
can be written on its own. A script and each function know the functions directly in them.
-/
namespace ScriptPress

structure FunctionEntry where
  data : FunctionData
  line : Nat
  depth : Nat
  parent? : Option Nat
  tree : Tree
  deriving Repr

namespace FunctionEntry
open Render

/-- What is written of a function. -/
def steps (e : FunctionEntry) (o : RenderOptions) : List WriterStep :=
  functionSteps e.tree.data (partsOf o e.tree.children)

/-- What is written of the statements in a function's body. -/
def bodySteps (e : FunctionEntry) (o : RenderOptions) : List WriterStep :=
  match e.tree.children with
  | [] => []
  | body :: _ => scriptSteps o body

end FunctionEntry

namespace FunctionIndex

/-- The functions of some nodes and below, from a number on. -/
def collectFrom (nodes : List Tree) (fuel depth : Nat) (parent? : Option Nat) (next : Nat)
    (ids : List NodeId) : List FunctionEntry :=
  match fuel, ids with
  | 0, _ => []
  | _, [] => []
  | fuel + 1, id :: rest =>
    match nodes.find? (·.id == id) with
    | none => collectFrom nodes fuel depth parent? next rest
    | some t =>
      match t.data.function? with
      | none => collectFrom nodes fuel depth parent? next rest
      | some data =>
        let inner := t.data.properties.nodes .functions
        let nested := collectFrom nodes fuel (depth + 1) (some next) (next + 1) inner
        { data, line := t.line, depth, parent?, tree := t } :: nested
          ++ collectFrom nodes fuel depth parent? (next + 1 + nested.length) rest

end FunctionIndex

/-- The functions of a script's tree. -/
structure FunctionIndex where
  root : Tree
  entries : List FunctionEntry
  deriving Repr

namespace FunctionIndex

def ofTree (root : Tree) : FunctionIndex :=
  let nodes := root.preorder
  { root
    entries := collectFrom nodes (nodes.length + 1) 0 none 0
      (root.data.properties.nodes .functions) }

def size (f : FunctionIndex) : Nat := f.entries.length

/-- The first function with a name. -/
def find? (f : FunctionIndex) (name : String) : Option Nat :=
  f.entries.findIdx? fun e => e.data.name == some name

/-- The functions directly in another one. -/
def nested (f : FunctionIndex) (index : Nat) : List Nat :=
  (List.range f.size).filter fun i => f.entries[i]?.any (·.parent? == some index)

def lookup (f : FunctionIndex) (index : Nat) : Except Failure FunctionEntry :=
  match f.entries[index]? with
  | some e => .ok e
  | none => .error (.functionIndex index f.size)

/-- The text of one function. -/
def renderFunction (f : FunctionIndex) (o : RenderOptions) (index : Nat) :
    Except Failure String := do
  let e ← f.lookup index
  return Render.write o (e.steps o)

/-- The text of the statements in one function's body. -/
def renderBody (f : FunctionIndex) (o : RenderOptions) (index : Nat) : Except Failure String := do
  let e ← f.lookup index
  return Render.write o (e.bodySteps o)

end FunctionIndex
end ScriptPress
