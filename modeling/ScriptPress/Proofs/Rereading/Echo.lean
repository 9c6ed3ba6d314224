import ScriptPress.Proofs.Printing.SameRun
import ScriptPress.Proofs.Rereading.Ahead

/-! # Trees that are read again

A tree that was written and read again echoes the one before: its sketch is what is left of the
other sketch in written form. It has the comments that were written and heard, and under options
that ask for nothing that was lost it is written as the other one is.
-/
namespace ScriptPress.Grammar
open Render

/-! ## Echoes -/

/-- A tree that was read again: its sketch is what is left of the other one's in written form. -/
def Tape.Echoes (x : Tape) (t t' : Tree) : Prop := t'.sketch = t.sketch.echo x.o.compact

section
variable {x : Tape} {t t' : Tree} {ts ts' : List Tree} {id id' : NodeId} {data data' : Node}
  {c : Core}

theorem core_echo {compact : Bool} (h : c.tag ≠ .string) : c.echo compact = c := by
  unfold Core.echo Core.joined
  simp [h]

theorem core_echo_same {compact : Bool} (c : Core) : (c.echo compact).datum = c.datum
    ∧ (c.echo compact).postfixForm = c.postfixForm := by
  unfold Core.echo Core.joined
  split
  · split <;> exact ⟨rfl, rfl⟩
  · exact ⟨rfl, rfl⟩

theorem map_sketch_echo (h : List.Forall₂ x.Echoes ts ts') :
    ts'.map Tree.sketch = ts.map fun t => t.sketch.echo x.o.compact := by
  induction h with
  | nil => rfl
  | cons ht _ ih => rw [List.map_cons, List.map_cons, ih, ht]

theorem echoes_core (h : data.core = c) (h' : data'.core.bare = (c.echo x.o.compact).bare)
    (ht : c.tag ≠ .objectLit) (hall : List.Forall₂ x.Echoes ts ts') :
    x.Echoes (.node id data ts) (.node id' data' ts') := by
  have htag : (c.bare.tag == .objectLit) = false := by simpa [Core.bare] using ht
  rw [Tape.Echoes, Tree.sketch_node, Tree.sketch_node, Outline.echo, h, h', Core.bare_echo,
    Outline.echoParts_eq htag, map_sketch_echo hall, List.map_map]
  rfl

/-- The node that is read again is the same one, unless it is a string or an object. -/
theorem echoes_node (h : data.core = c) (h' : data'.core = c)
    (ht : c.tag ≠ .string ∧ c.tag ≠ .objectLit) (hall : List.Forall₂ x.Echoes ts ts') :
    x.Echoes (.node id data ts) (.node id' data' ts') :=
  echoes_core h (by rw [h', core_echo ht.1]) ht.2 hall

/-- Comments and other properties show in no sketch. -/
theorem sketch_put {kind : PropertyKind} {value : PropertyValue} (hk : kind ≠ .postfixForm)
    (t : Tree) : (t.put kind value).sketch = t.sketch := by
  cases t with
  | node id data ts =>
    have hcore : (data.put kind value).core = data.core := by
      simp [Node.core, Node.put, Properties.flag_put (Ne.symm hk)]
    rw [Tree.put, Tree.mapData, Tree.sketch_node, Tree.sketch_node, hcore]

namespace Tape.Echoes

theorem node (h : x.Echoes (.node id data ts) (.node id' data' ts')) :
    data'.core.bare = (data.core.echo x.o.compact).bare
      ∧ ts'.map Tree.sketch
        = Outline.echoParts x.o.compact data.core.bare 0 (ts.map Tree.sketch) := by
  rw [Tape.Echoes, Tree.sketch_node, Tree.sketch_node, Outline.echo, Outline.node.injEq] at h
  exact ⟨by rw [Core.bare_echo, h.1], h.2⟩

theorem core (h : x.Echoes t t') : t'.data.core.bare = (t.data.core.echo x.o.compact).bare := by
  cases t
  cases t'
  exact h.node.1

theorem tag (h : x.Echoes t t') : t'.tag = t.tag := by
  have htag := congrArg Core.tag h.core
  rw [Core.bare_echo, Core.echo_tag] at htag
  exact htag

theorem datum (h : x.Echoes t t') : t'.data.datum = t.data.datum := by
  have hdatum := congrArg Core.datum h.core
  rw [Core.bare_echo, (core_echo_same _).1] at hdatum
  exact hdatum

theorem postfixForm (h : x.Echoes t t') :
    t'.data.properties.flag .postfixForm = t.data.properties.flag .postfixForm := by
  have hform := congrArg Core.postfixForm h.core
  rw [Core.bare_echo, (core_echo_same _).2] at hform
  exact hform

/-- The text of everything but a string stays. -/
theorem payload (h : x.Echoes t t') (ht : t.tag ≠ .string) :
    t'.data.payload.bare = t.data.payload.bare := by
  have hcore := h.core
  rw [core_echo ht] at hcore
  exact congrArg Core.payload hcore

theorem length (h : x.Echoes t t') : t'.children.length = t.children.length := by
  have hparts : ∀ (c : Core) (index : Nat) (parts : List Outline),
      (Outline.echoParts x.o.compact c index parts).length = parts.length := by
    intro c index parts
    induction parts generalizing index with
    | nil => rw [Outline.echoParts]
    | cons p parts ih => rw [Outline.echoParts, List.length_cons, List.length_cons, ih]
  cases t
  cases t'
  have hlength := congrArg List.length h.node.2
  rw [hparts, List.length_map, List.length_map] at hlength
  exact hlength

theorem withComments {kind : PropertyKind} (h : x.Echoes t t') (hk : kind ≠ .postfixForm)
    (cs : List String) : x.Echoes t (withComments kind cs t') := by
  rw [Grammar.withComments]
  split
  · exact h
  · rwa [Tape.Echoes, sketch_put hk]

/-! ### Parentheses -/

theorem precedence (h : x.Echoes t t') : t'.data.precedence = t.data.precedence := by
  have htag : t'.data.tag = t.data.tag := h.tag
  unfold Node.precedence
  rw [htag, h.postfixForm]

theorem isWholeNumber (h : x.Echoes t t') : isWholeNumber t'.data = isWholeNumber t.data := by
  have htag : t'.data.tag = t.data.tag := h.tag
  unfold Render.isWholeNumber
  rw [htag]
  by_cases hnumber : t.data.tag = .number
  · have hstring : t.tag ≠ .string := by
      rw [Tree.tag, hnumber]
      simp
    have hpayload := h.payload hstring
    have hdata : t'.data.data? = t.data.data? := by
      rw [Node.data?, Node.data?]
      cases hp : t.data.payload <;> cases hp' : t'.data.payload <;> simp_all [Payload.bare]
    rw [hdata]
  · have hbeq : (t.data.tag == .number) = false := by simpa using hnumber
    rw [hbeq, Bool.false_and, Bool.false_and]

theorem containsCall (h : x.Echoes t t') : t'.containsCall = t.containsCall := by
  induction t using Tree.induction generalizing t' with
  | node id data ts ih =>
    cases t' with
    | node id' data' ts' =>
      have htag : data'.tag = data.tag := h.tag
      rw [containsCall_node, containsCall_node, htag]
      by_cases haccess : data.tag = .getProp ∨ data.tag = .getElem
      · have hnot : (data.core.bare.tag == .objectLit) = false := by
          rcases haccess with haccess | haccess <;> simp [Core.bare, Node.core, haccess]
        have hchildren := h.node.2
        rw [Outline.echoParts_eq hnot, List.map_map] at hchildren
        have hobject : ts'.head?.any Tree.containsCall = ts.head?.any Tree.containsCall := by
          cases ts with
          | nil =>
            obtain rfl : ts' = [] := by simpa using hchildren
            rfl
          | cons object rest =>
            cases ts' with
            | nil => simp at hchildren
            | cons object' rest' =>
              rw [List.map_cons, List.map_cons, List.cons.injEq] at hchildren
              exact ih object (by simp) hchildren.1
        rw [hobject]
      · have hbeq : (data.tag == .getProp || data.tag == .getElem) = false := by
          simpa using haccess
        rw [hbeq, Bool.false_and, Bool.false_and]

theorem needsParens (h : x.Echoes t t') (place : Place) :
    needsParens t' place = needsParens t place := by
  have htag : t'.data.tag = t.data.tag := h.tag
  unfold Render.needsParens opensOtherStatement isInOperation
  rw [h.precedence, h.isWholeNumber, h.containsCall, htag, h.datum]

end Tape.Echoes
end

/-! ## What is left of comments -/

namespace Tape
variable {x : Tape} {o : RenderOptions}

/-- The comments that are heard of those on a tree that was written. -/
def recalled (x : Tape) (cs : List String) : List String :=
  if x.o.writesComments then x.hears cs else []

@[simp] theorem recalled_nil (x : Tape) : x.recalled [] = [] := by
  rw [recalled, hears_nil, ite_self]

theorem hears_append (x : Tape) (cs cs' : List String) :
    x.hears (cs ++ cs') = x.hears cs ++ x.hears cs' := by
  unfold hears Lexer.hears
  split <;> rfl

@[simp] theorem recalled_append (x : Tape) (cs cs' : List String) :
    x.recalled (cs ++ cs') = x.recalled cs ++ x.recalled cs' := by
  unfold recalled
  split
  · exact x.hears_append cs cs'
  · rfl

/-- Output that asks for nothing that was lost: strings with their lines only if they were written
with them, and comments only if they were written and heard. -/
structure Suffices (x : Tape) (o : RenderOptions) : Prop where
  joins : x.o.compact = true → o.compact = true
  comments : o.writesComments = true → x.keep = true ∧ x.o.writesComments = true

theorem Suffices.hears (h : x.Suffices o) (ho : o.writesComments = true) (cs : List String) :
    x.hears cs = cs := by
  rw [Tape.hears, Lexer.hears, (h.comments ho).1, if_pos rfl]

theorem Suffices.recalled (h : x.Suffices o) (ho : o.writesComments = true) (cs : List String) :
    x.recalled cs = cs := by
  rw [Tape.recalled, (h.comments ho).2, if_pos rfl, h.hears ho]

end Tape

/-! ## Trees with their comments -/

/-- A tree that was read again, with the comments that are left of the other one's. -/
structure Tape.Regains (x : Tape) (t t' : Tree) : Prop where
  echo : x.Echoes t t'
  remarks : t'.remarks = x.recalled t.remarks

/-- An expression that was read again, and is written as the other one. -/
structure Tape.Redraws (x : Tape) (t t' : Tree) : Prop extends x.Regains t t' where
  drawn : ∀ o, x.Suffices o → ∀ place, SameRun (exprAt o t' place) (exprAt o t place)

section
variable {x : Tape} {t t' : Tree} {ts ts' : List Tree} {id id' : NodeId} {data data' : Node}
  {c : Core}

theorem echoes_all (h : List.Forall₂ x.Regains ts ts') : List.Forall₂ x.Echoes ts ts' :=
  h.imp fun _ _ h => h.echo

theorem remarksAll_regains (h : List.Forall₂ x.Regains ts ts') :
    Tree.remarksAll ts' = x.recalled (Tree.remarksAll ts) := by
  induction h with
  | nil => simp [Tree.remarksAll]
  | cons ht _ ih => rw [Tree.remarksAll, Tree.remarksAll, ih, ht.remarks, Tape.recalled_append]

theorem remarks_plain (h : data.Plain c) : (Tree.node id data ts).remarks = Tree.remarksAll ts := by
  rw [Tree.remarks, h.leading, h.trailing, List.nil_append, List.append_nil]

theorem regains_node (h : data.Plain c) (h' : data'.Plain c)
    (ht : c.tag ≠ .string ∧ c.tag ≠ .objectLit) (hall : List.Forall₂ x.Regains ts ts') :
    x.Regains (.node id data ts) (.node id' data' ts') := by
  refine ⟨echoes_node h.core h'.core ht (echoes_all hall), ?_⟩
  rw [remarks_plain h, remarks_plain h', remarksAll_regains hall]

/-- Expressions that are written alike without parentheses. -/
theorem redraws_bare (h : x.Regains t t')
    (hbare : ∀ o, x.Suffices o → ∀ place, SameRun (bareAt o t' place) (bareAt o t place)) :
    x.Redraws t t' := by
  refine ⟨h, fun o ho place => ?_⟩
  rw [exprAt_eq, exprAt_eq, h.echo.needsParens]
  split
  · exact .cons _ ((hbare o ho place.inner).behind _)
  · exact hbare o ho place

theorem redraws_node (h : data.Plain c) (h' : data'.Plain c)
    (ht : c.tag ≠ .string ∧ c.tag ≠ .objectLit) (hall : List.Forall₂ x.Regains ts ts')
    (hbare : ∀ o, x.Suffices o → ∀ place,
      SameRun (bareAt o (.node id' data' ts') place) (bareAt o (.node id data ts) place)) :
    x.Redraws (.node id data ts) (.node id' data' ts') :=
  redraws_bare (regains_node h h' ht hall) hbare

theorem regains_named {ok : String → Prop} {name : String} (h : IsNamed ok name t) {id' : NodeId}
    {line : Nat} : x.Regains t (.node id' (.identifier name line) []) := by
  obtain ⟨hdata, -⟩ := h
  exact regains_node hdata (Node.plain_identifier name line) (by simp) .nil

end
end ScriptPress.Grammar
