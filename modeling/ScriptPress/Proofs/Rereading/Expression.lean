import ScriptPress.Proofs.Jumps.Tally
import ScriptPress.Proofs.Rereading.Roundtrip

/-! # Reading expressions again

An expression that was put together from parts the dialect allows is read again to the same tree,
where it stands as a statement and where it begins the header of a loop. No string of it may go on
over a line break, since compact output joins the lines of a string.
-/
namespace ScriptPress
open Lexer Render

namespace Tree

/-- No string of the tree goes on over a line break. -/
def Unbroken (t : Tree) : Prop := ∀ u ∈ t.preorder, u.data.core.joined = u.data.core

@[simp] theorem unbroken_node {id : NodeId} {data : Node} {children : List Tree} :
    Unbroken (node id data children)
      ↔ data.core.joined = data.core ∧ ∀ t ∈ children, t.Unbroken := by
  constructor
  · refine fun h => ⟨h (node id data children) (by rw [preorder]; simp), fun t ht u hu => h u ?_⟩
    rw [preorder]
    exact List.mem_cons_of_mem _ (mem_preorderAll.mpr ⟨t, ht, hu⟩)
  · rintro ⟨hcore, hall⟩ u hu
    rw [preorder, List.mem_cons, mem_preorderAll] at hu
    obtain rfl | ⟨t, ht, hu⟩ := hu
    · exact hcore
    · exact hall t ht u hu

/-- Compact output leaves an unbroken tree as it is. -/
theorem Unbroken.echo {t : Tree} (h : t.Unbroken) : t.outline.echo true = t.outline := by
  induction t using induction with
  | node id data children ih =>
    obtain ⟨hcore, hall⟩ := unbroken_node.mp h
    rw [outline_node, Outline.echo, Outline.echoParts_self]
    · exact congrArg (Outline.node · _) hcore
    · intro x hx
      obtain ⟨t, ht, rfl⟩ := List.mem_map.mp hx
      exact ih t ht (hall t ht)

/-! ## Places of an expression -/

/-- A script of one statement. -/
def alone (statement : Tree) : Tree := node ⟨0⟩ (.script "" 1) [statement]

/-- A script of an expression statement. -/
def asStatement (t : Tree) : Tree := alone (node ⟨1⟩ (.leaf .exprStatement 1) [t])

def nothing (index : Nat) : Tree := node ⟨index⟩ (.leaf .empty 1) []

/-- A script of a loop that begins with an expression, has no other parts and does nothing. -/
def asLoopStart (t : Tree) : Tree :=
  alone (node ⟨1⟩ (.leaf .kwFor 1) [t, nothing 2, nothing 3, nothing 4])

variable {t : Tree}

theorem unbroken_nothing (index : Nat) : (nothing index).Unbroken :=
  unbroken_node.mpr ⟨rfl, nofun⟩

theorem Unbroken.alone (h : t.Unbroken) : t.alone.Unbroken :=
  unbroken_node.mpr ⟨rfl, by simpa using h⟩

theorem Unbroken.asStatement (h : t.Unbroken) : t.asStatement.Unbroken :=
  alone (unbroken_node.mpr ⟨rfl, by simpa using h⟩)

theorem Unbroken.asLoopStart (h : t.Unbroken) : t.asLoopStart.Unbroken :=
  alone (unbroken_node.mpr ⟨rfl, by simpa using ⟨h, unbroken_nothing 2, unbroken_nothing 3,
    unbroken_nothing 4⟩⟩)

end Tree

section
variable {d : Dialect} {t : Tree}

theorem isScript_alone (h : Formed d (.statement {} true) t) : IsScript d t.alone := by
  refine .mk ⟨rfl, nofun, nofun⟩ rfl fun u hu => ?_
  obtain rfl := List.mem_singleton.mp hu
  exact h

/-- An expression may stand as a statement. -/
theorem Formed.asStatement (h : Formed d .expr t) : IsScript d t.asStatement :=
  isScript_alone (.exprStatement (Node.plain_leaf _ _).remarked h)

/-- An expression may begin the header of a loop. -/
theorem Formed.asLoopStart (h : Formed d .expr t) : IsScript d t.asLoopStart :=
  isScript_alone (.for (Node.plain_leaf _ _).remarked (.exprStart h) (.noPart (Node.plain_leaf _ _))
    (.noPart (Node.plain_leaf _ _)) (.empty (Node.plain_leaf _ _).remarked))

end

namespace Script

theorem read_unbroken {settings : ReadSettings} {t : Tree} (h : IsScript settings.dialect t)
    (hstrings : t.Unbroken) :
    ∃ script, read settings (Render.script .compactForm t) = .ok script
      ∧ script.tree.outline = t.outline := by
  obtain ⟨script, hread, -, houtline, -⟩ := read_written h .compactForm
  exact ⟨script, hread, houtline.trans hstrings.echo⟩

/-- An expression is read again, as a statement and at the beginning of a loop. -/
theorem read_expression {settings : ReadSettings} {t : Tree} (h : Formed settings.dialect .expr t)
    (hstrings : t.Unbroken) :
    (∃ script, read settings (Render.script .compactForm t.asStatement) = .ok script
      ∧ script.tree.outline = t.asStatement.outline)
    ∧ ∃ script, read settings (Render.script .compactForm t.asLoopStart) = .ok script
      ∧ script.tree.outline = t.asLoopStart.outline :=
  ⟨read_unbroken h.asStatement hstrings.asStatement,
    read_unbroken h.asLoopStart hstrings.asLoopStart⟩

/-- The tree of `new(f())in a`. -/
def newInName : Tree :=
  .node ⟨4⟩ (.operation .relation (some .kwIn) 1)
    [.node ⟨3⟩ (.leaf .kwNew 1) [.node ⟨2⟩ (.leaf .call 1) [.node ⟨1⟩ (.identifier "f" 1) []]],
      .node ⟨5⟩ (.identifier "a" 1) []]

theorem newInName_formed : Formed .latest .expr newInName :=
  have name (id : NodeId) (s : String) (h : IsName .latest s) :
      Formed .latest .expr (.node id (.identifier s 1) []) :=
    .leaf (Node.plain_identifier _ _) (.name h)
  .binary (Node.plain_operation _ _ _) ⟨.kwIn, none, ⟨'i', rfl, rfl⟩, rfl⟩
    (.construct (Node.plain_leaf _ _)
      (.call (Node.plain_leaf _ _) (name _ "f" ⟨'f', rfl, rfl⟩) nofun) nofun)
    (name _ "a" ⟨'a', rfl, rfl⟩)

/-- An operator that a header does not allow, over a call within the callee of a `new`. -/
theorem read_expression_new :
    (∃ script, read {} "new(f())in a" = .ok script
      ∧ script.tree.outline = newInName.asStatement.outline)
    ∧ ∃ script, read {} "for((new(f())in a);;);" = .ok script
      ∧ script.tree.outline = newInName.asLoopStart.outline := by
  have hstatement : Render.script .compactForm newInName.asStatement = "new(f())in a" := by
    decide +kernel
  have hloop : Render.script .compactForm newInName.asLoopStart = "for((new(f())in a);;);" := by
    decide +kernel
  rw [← hstatement, ← hloop]
  refine read_expression newInName_formed ?_
  simp only [newInName, Tree.unbroken_node, List.forall_mem_cons]
  exact ⟨rfl, ⟨rfl, ⟨rfl, ⟨rfl, nofun⟩, nofun⟩, nofun⟩, ⟨rfl, nofun⟩, nofun⟩

end Script
end ScriptPress
