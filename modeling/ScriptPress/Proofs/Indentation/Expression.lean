import ScriptPress.Proofs.Indentation.Places

/-! # The lines of expressions

An expression begins lines only for the statements of the functions in it, wherever they stand, and
at the depth of the statement it belongs to.
-/
namespace ScriptPress
open Lexer Tree Render

namespace Tree
variable {d : Nat} {id : NodeId} {data : Node} {t : Tree}

/-- In an expression stands what stands below it. -/
theorem indentedAt_operand (t : Tree) : indentedAt d .operand t = indentedIn d t := indentedAt_eq t

/-- A node all of whose children are operands begins the lines of those. -/
theorem indentedAt_operands {core : Core} (h : data.core = core)
    (hcore : ∀ n, core.tag.positions n = []) (ts : List Tree) :
    indentedAt d .operand (.node id data ts) = ts.flatMap (indentedAt d .operand) := by
  have hblock : core.tag ≠ .block := by
    intro htag
    have hnone := hcore 1
    rw [htag] at hnone
    cases hnone
  rw [indentedAt_operand, indentedIn_node h hblock, hcore, indentedUnder_operands]

/-- A function begins the lines of its body. -/
theorem indentedAt_function {core : Core} {body : Tree} (h : data.core = core)
    (hcore : core.tag = .kwFunction) :
    indentedAt d .operand (.node id data [body]) = indentedAt d .block body := by
  rw [indentedAt_operand, indentedIn_node h (by simp [hcore]), hcore]
  exact List.append_nil _

end Tree

variable {o : RenderOptions} {dialect : Dialect} {d : Nat} {t : Tree} {id : NodeId} {data : Node}
variable {xs ys : List WriterStep} {ms ks : List Indented} {ts : List Tree}

/-- A name begins no line. -/
theorem IsNamed.indented {ok : String → Prop} {name : String} (h : IsNamed ok name t) :
    indentedAt d .operand t = [] := by
  obtain ⟨-, -⟩ := h
  exact indentedAt_leaf _ _

theorem IsKey.indented (h : IsKey dialect t) : indentedAt d .operand t = [] := by
  cases h with
  | name | string | number => exact indentedAt_leaf _ _

namespace Render

/-- What is written of an expression, at any place, lays out the lines in it. -/
def ExprLays (o : RenderOptions) (t : Tree) : Prop :=
  ∀ d place, Lays o d (exprAt o t place) (indentedAt d .operand t)

theorem exprLays_of_bare (h : ∀ d place, Lays o d (bareAt o t place) (indentedAt d .operand t)) :
    ExprLays o t := by
  intro d place
  rw [exprAt_eq]
  split
  · exact ((h d _).cons rfl).snoc _ (by simp)
  · exact h d place

/-- An expression that writes its operands. -/
theorem expr_lays {core : Core} (hdata : data.core = core) (hcore : ∀ n, core.tag.positions n = [])
    (h : ∀ d place, Lays o d (bareAt o (.node id data ts) place)
      (ts.flatMap (indentedAt d .operand))) : ExprLays o (.node id data ts) := by
  refine exprLays_of_bare fun d place => ?_
  rw [indentedAt_operands hdata hcore]
  exact h d place

theorem leaf_lays {core : Core} (hdata : data.core = core) (hleaf : IsLeaf dialect core) :
    ExprLays o (.node id data []) := by
  refine exprLays_of_bare fun d place => ?_
  rw [indentedAt_leaf]
  refine .flat ?_
  cases hleaf with
  | name => simp [bareAt_identifier hdata]
  | number => simp [bareAt_number hdata]
  | string => simp [bareAt_string hdata]
  | regExp => simp [bareAt_regExp hdata]
  | primary => simp [bareAt_primary hdata]

/-- Each of some operands on its own. -/
theorem separated_lays {steps : Tree → List WriterStep}
    (h : ∀ t ∈ ts, Lays o d (steps t) (indentedAt d .operand t)) :
    Lays o d (separated (ts.map steps)) (ts.flatMap (indentedAt d .operand)) := .separated h

theorem arguments_lay {args : List Tree} (h : ∀ t ∈ args, ExprLays o t) :
    Lays o d (argumentSteps (args.map (part o))) (args.flatMap (indentedAt d .operand)) := by
  have hall := separated_lays fun t ht => h t ht d { use := .operand Precedence.assignment }
  have hsteps : argumentSteps (args.map (part o)) = .token "(" :: separated
      (args.map fun t => exprAt o t { use := .operand Precedence.assignment }) ++ [.token ")"] := by
    simp [argumentSteps, Function.comp_def]
  rw [hsteps]
  exact (hall.cons rfl).snoc _ (by simp)

/-- What is written of an element, unless it is a hole, which begins no line. -/
structure ElementLays (o : RenderOptions) (t : Tree) : Prop where
  expr : t.tag ≠ .empty → ExprLays o t
  hole : t.tag = .empty → ∀ d, indentedAt d .operand t = []

theorem ElementLays.item (h : ElementLays o t) (place : Place) (xs ys : List WriterStep)
    (hxs : ∀ s ∈ xs, s.isFlat = true) (hys : ∀ s ∈ ys, s.isFlat = true) :
    Lays o d (if t.tag == .empty then xs else ys ++ exprAt o t place)
      (indentedAt d .operand t) := by
  by_cases ht : t.tag = .empty
  · rw [if_pos (by simpa using ht), h.hole ht]
    exact .flat hxs
  · rw [if_neg (by simpa using ht)]
    exact (h.expr ht d place).behind ys hys

theorem elements_lay (h : ∀ t ∈ ts, ElementLays o t) :
    Lays o d (elementSteps (ts.map (part o))) (ts.flatMap (indentedAt d .operand)) := by
  induction ts with
  | nil => exact .nil
  | cons t ts ih =>
    obtain ⟨ht, hrest⟩ := List.forall_mem_cons.mp h
    have hitem := ht.item (d := d) { use := .operand Precedence.assignment } [.token ","]
      [.token ",", .space] (by simp) (by simp)
    rw [List.map_cons, elementSteps, part_tag, part_enclosed]
    exact hitem.append (ih hrest)

theorem array_lays (h : ∀ t ∈ ts, ElementLays o t) :
    Lays o d (arraySteps (ts.map (part o))) (ts.flatMap (indentedAt d .operand)) := by
  cases ts with
  | nil => exact .flat (by simp [arraySteps])
  | cons t ts =>
    obtain ⟨ht, hrest⟩ := List.forall_mem_cons.mp h
    have hitem := ht.item (d := d) { use := .operand Precedence.assignment } [] [] (by simp)
      (by simp)
    rw [List.map_cons, arraySteps]
    simp only [part_tag, part_enclosed]
    refine (Lays.cons rfl (hitem.append (elements_lay hrest)) |>.snoc _ ?_).snoc _ ?_
    · split <;> simp
    · simp

theorem pairs_lay {pairs : List (Tree × Tree)} (hkeys : ∀ p ∈ pairs, IsKey dialect p.1)
    (h : ∀ p ∈ pairs, ExprLays o p.2) :
    Lays o d (separated (pairs.map (pairSteps o)))
      ((flatPairs pairs).flatMap (indentedAt d .operand)) := by
  rw [flatPairs, List.flatMap_assoc]
  refine Lays.separated fun p hp => ?_
  rw [List.flatMap_cons, (hkeys p hp).indented, List.nil_append, List.flatMap_singleton]
  exact .cons rfl (.cons rfl (.cons rfl (h p hp d _)))

/-- What is written of a block lays out its statements. -/
def BlockLays (o : RenderOptions) (t : Tree) : Prop :=
  ∀ d, Lays o d (statementAt o t .block) (indentedAt d .block t)

/-- What is written of a statement, in each of its roles, lays out it and the lines in it. -/
structure StatementLays (o : RenderOptions) (t : Tree) : Prop where
  listed : ∀ d first, Lays o d (statementAt o t (.listed first)) (indentedAt d .listed t)
  body : ∀ d, Lays o d (statementAt o t .body) (indentedAt d .body t)
  otherwise : ∀ d, Lays o d (statementAt o t .otherwise) (indentedAt d .otherwise t)

/-- What is written of a tree, by its form, lays out the lines in it. The clauses of a switch are
written one level deeper than the switch. -/
def FormLays (o : RenderOptions) : Form → Tree → Prop
  | .expr, t => ExprLays o t
  | .element, t | .part, t => ElementLays o t
  | .declared, t => ∀ d noIn, Lays o d (statementAt o t (.declared noIn)) (indentedAt d .operand t)
  | .start, t => ∀ d, Lays o d (statementAt o t .loopStart) (indentedAt d .operand t)
  | .statement _ _, t => StatementLays o t
  | .block _ _, t => BlockLays o t
  | .clause _, t => ∀ d first,
    Lays o (d + 1) (statementAt o t (.switchClause first)) (indentedAt d .clause t)
  | .handler _ _, t => ∀ d, Lays o d (statementAt o t .tryClause) (indentedAt d .handler t)

theorem function_lays {f : FunctionData} {body : Tree} (h : BlockLays o body) :
    Lays o d (functionAt o f body) (indentedAt d .block body) := by
  have hparams : Lays o d (separated (f.params.map fun p => [.token p])) [] := by
    have hall : Lays o d (separated (f.params.map fun p => [.token p]))
        (f.params.flatMap fun _ => []) :=
      Lays.separated fun p _ => .flat (by simp)
    rwa [List.flatMap_eq_nil_iff.mpr fun _ _ => rfl] at hall
  have hname : (f.name.elim WriterStep.space .token).isFlat = true := by cases f.name <;> rfl
  have hhead : Lays o d (.token "function" :: f.name.elim .space .token :: .token "("
      :: separated (f.params.map fun p => [.token p])) [] :=
    .cons rfl (.cons hname (.cons rfl hparams))
  exact hhead.append (.cons rfl (.cons rfl (h d)))

theorem positions_binary {tag : Tag} {level : Nat} (h : tag.binaryPrecedence? = some level)
    (n : Nat) : tag.positions n = [] := by
  cases tag <;> first | rfl | cases h

end Render

open Render

/-- An expression lays out the lines of its functions, if its parts lay out theirs. -/
theorem Formed.expr_lays (h : Formed dialect .expr (.node id data ts))
    (ih : ∀ t ∈ ts, ∀ form, Formed dialect form t → FormLays o form t) :
    ExprLays o (.node id data ts) := by
  cases h with
  | leaf hdata hleaf => exact leaf_lays hdata.core hleaf
  | array hdata hall =>
    refine Render.expr_lays hdata.core (fun _ => rfl) fun d place => ?_
    rw [bareAt_array hdata.core]
    exact array_lays fun t ht => ih t ht .element (hall t ht)
  | @object _ _ pairs hdata hkeys hvalues =>
    refine Render.expr_lays hdata.core (fun _ => rfl) fun d place => ?_
    rw [bareAt_object hdata.core]
    have hpairs : ∀ p ∈ pairs, ExprLays o p.2 := fun p hp =>
      ih p.2 (List.mem_flatMap.mpr ⟨p, hp, by simp⟩) .expr (hvalues p hp)
    exact ((pairs_lay hkeys hpairs).cons rfl).snoc _ (by simp)
  | function hdata _ hbody =>
    refine exprLays_of_bare fun d place => ?_
    rw [bareAt_function hdata.core, indentedAt_function hdata.core rfl]
    exact function_lays (ih _ (by simp) (.block _ _) hbody)
  | unary hdata _ hoperand =>
    refine Render.expr_lays hdata.core (fun _ => rfl) fun d place => ?_
    rw [bareAt_unary hdata.core, List.flatMap_singleton]
    exact (ih _ (by simp) .expr hoperand d _).cons rfl
  | step hdata ht _ hoperand =>
    have hoperand := ih _ (by simp) .expr hoperand
    refine Render.expr_lays hdata.core (by rcases ht with rfl | rfl <;> exact fun _ => rfl)
      fun d place => ?_
    rw [bareAt_step hdata.core ht, List.flatMap_singleton]
    split
    · exact (hoperand d _).snoc _ (by simp)
    · exact (hoperand d _).cons rfl
  | assign hdata _ _ htarget hvalue =>
    refine Render.expr_lays hdata.core (fun _ => rfl) fun d place => ?_
    rw [bareAt_assign hdata.core, List.flatMap_cons, List.flatMap_singleton]
    exact (ih _ (by simp) .expr htarget d _).infixed (ih _ (by simp) .expr hvalue d _) _
  | conditional hdata htest hyes hno =>
    refine Render.expr_lays hdata.core (fun _ => rfl) fun d place => ?_
    rw [bareAt_conditional hdata.core, List.flatMap_cons, List.flatMap_cons,
      List.flatMap_singleton]
    have hyes : ExprLays o _ := ih _ (by simp) .expr hyes
    have hno : ExprLays o _ := ih _ (by simp) .expr hno
    exact (ih _ (by simp) .expr htest d _).infixed ((hyes d _).infixed (hno d _) _) _
  | binary hdata hop hleft hright =>
    obtain ⟨level, hlevel⟩ := hop.level
    refine Render.expr_lays hdata.core (positions_binary hlevel) fun d place => ?_
    rw [bareAt_binary hdata.core hlevel, List.flatMap_cons, List.flatMap_singleton]
    exact (ih _ (by simp) .expr hleft d _).infixed (ih _ (by simp) .expr hright d _) _
  | comma hdata hleft hright =>
    refine Render.expr_lays hdata.core (fun _ => rfl) fun d place => ?_
    rw [bareAt_comma hdata.core, List.flatMap_cons, List.flatMap_singleton]
    have hright := ih _ (by simp) .expr hright d (place.next Precedence.assignment)
    exact (ih _ (by simp) .expr hleft d _).append (.cons rfl (.cons rfl hright))
  | call hdata hcallee hargs =>
    refine Render.expr_lays hdata.core (fun _ => rfl) fun d place => ?_
    rw [bareAt_call hdata.core, List.flatMap_cons]
    refine (ih _ (by simp) .expr hcallee d _).append ?_
    exact arguments_lay fun t ht => ih t (List.mem_cons_of_mem _ ht) .expr (hargs t ht)
  | @construct _ _ _ args hdata hcallee hargs =>
    refine Render.expr_lays hdata.core (fun _ => rfl) fun d place => ?_
    rw [bareAt_construct hdata.core, List.flatMap_cons]
    have hcallee := ih _ (by simp) .expr hcallee d { use := .callee, noIn := place.noIn }
    refine Lays.append (hcallee.cons rfl) ?_
    split
    · next hout =>
      have hnil : args = [] := by simpa using (Bool.and_eq_true_iff.mp hout).1
      rw [hnil]
      exact .nil
    · exact arguments_lay fun t ht => ih t (List.mem_cons_of_mem _ ht) .expr (hargs t ht)
  | property hdata hobject hname =>
    refine Render.expr_lays hdata.core (fun _ => rfl) fun d place => ?_
    rw [bareAt_property hdata.core hname, List.flatMap_cons, List.flatMap_singleton,
      hname.indented, List.append_nil]
    exact (ih _ (by simp) .expr hobject d _).snoc _ (by simp)
  | index hdata hobject hindex =>
    refine Render.expr_lays hdata.core (fun _ => rfl) fun d place => ?_
    rw [bareAt_index hdata.core, List.append_assoc, List.flatMap_cons, List.flatMap_singleton]
    have hindex := ih _ (by simp) .expr hindex d { use := .operand Precedence.comma }
    exact (ih _ (by simp) .expr hobject d _).append
      ((hindex.cons rfl).snoc _ (by simp))

end ScriptPress
