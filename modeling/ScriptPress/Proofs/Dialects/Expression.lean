import ScriptPress.Proofs.Dialects.Course

/-! # Expressions in later dialects

The readers of expressions, one for each reader of the grammar.
-/
namespace ScriptPress

/-- A grammar whose readers for nested parts go the same way in a later dialect. -/
structure Grammar.Lasts (w : Dialect) (g : Grammar) : Prop where
  statement : ∀ top, Rises w (g.statement top)
  assignment : ∀ noIn, Rises w (g.assignment noIn)
  expression : ∀ noIn, Rises w (g.expression noIn)
  unary : Rises w g.unary
  member : ∀ allowCall, Rises w (g.member allowCall)

namespace Grammar
variable {α β : Type} {w : Dialect} {g : Grammar} {item : Reading α}

/-! ## Loops -/

theorem rises_repeatTurns {step : α → Reading (Turn α β)} (h : ∀ a, Rises w (step a)) (a : α) :
    Rises w (g.repeatTurns step a) := rises_iterate h _ a

theorem rises_itemsBetweenCommas (hitem : Rises w item) :
    Rises w (g.itemsBetweenCommas item) := by
  refine rises_repeatTurns (fun items => hitem.bind fun a => ?_) []
  exact (rises_accept _).bind fun _ => (rises_pure _).ite (rises_pure _)

theorem rises_itemsUntil {ends : Token → Bool} (hitem : Rises w item) (first : List α) :
    Rises w (g.itemsUntil ends item first) := by
  refine rises_repeatTurns (fun items => rises_ask (fun s => ?_) fun _ => rfl) first
  exact (rises_pure _).ite (hitem.bind fun _ => rises_pure _) s

/-! ## Literals -/

theorem rises_leaf (data : Token → Node) :
    Rises w (advance >>= fun t => makeNode (data t) []) :=
  rises_advance.bind fun _ => rises_makeNode _ _

variable (hg : g.Lasts w)
include hg

theorem rises_arrayElement (elements : List Tree) : Rises w (g.arrayElement elements) := by
  refine rises_ifCheck (rises_pure _) (rises_ifCheck ?_ ?_)
  · exact rises_advance.bind fun _ => (rises_makeNode _ _).bind fun _ => rises_pure _
  · refine (hg.assignment false).bind fun _ => rises_ifCheck ?_ ?_
    · refine rises_advance.bind fun _ => rises_ifCheck ?_ (rises_pure _)
      exact (rises_warn _ _).bind fun _ => rises_pure _
    · exact rises_ifCheck (rises_pure _) (rises_fail _)

theorem rises_arrayLiteral : Rises w g.arrayLiteral := by
  refine rises_advance.bind fun _ => (rises_repeatTurns (rises_arrayElement hg) []).bind fun _ => ?_
  exact (rises_expect _ _).bind fun _ => rises_makeNode _ _

omit hg in
theorem rises_propertyKey : Rises w propertyKey := by
  refine rises_ask (fun s => ?_) fun _ => rfl
  dsimp only
  split
  · exact rises_leaf _ s
  · exact (rises_advance.bind fun _ => (rises_warn _ _).bind fun _ => rises_makeNode _ _) s
  · exact rises_leaf _ s
  · exact rises_leaf _ s
  · exact rises_fail _ s

theorem rises_objectProperty (parts : List Tree) : Rises w (g.objectProperty parts) := by
  refine rises_ifCheck (rises_pure _) (rises_propertyKey.bind fun _ => ?_)
  refine (rises_expect _ _).bind fun _ => (hg.assignment false).bind fun _ => ?_
  refine rises_ifCheck (rises_advance.bind fun _ => rises_ifCheck ?_ (rises_pure _)) ?_
  · exact (rises_warn _ _).bind fun _ => rises_pure _
  · exact rises_ifCheck (rises_pure _) (rises_fail _)

theorem rises_objectLiteral : Rises w g.objectLiteral := by
  refine rises_advance.bind fun _ => (rises_repeatTurns (rises_objectProperty hg) []).bind ?_
  exact fun _ => (rises_expect _ _).bind fun _ => rises_makeNode _ _

/-! ## Functions -/

theorem rises_blockAfterBrace (top : Bool) (line : Nat) (construct : String) :
    Rises w (g.blockAfterBrace top line construct) := by
  refine rises_freshId.bind fun _ => (rises_itemsUntil (hg.statement top) []).bind fun _ => ?_
  refine rises_takeComments.bind fun _ => (rises_expect _ _).bind fun _ => ?_
  exact rises_pure _

omit hg in
theorem rises_parameters : Rises w g.parameters := by
  refine rises_ifCheck (rises_pure _) (rises_itemsBetweenCommas ?_)
  exact (rises_declaredName _).bind fun _ => rises_pure _

omit hg in
theorem rises_functionName (role : FunctionRole) : Rises w (functionName role) := by
  refine rises_ask (fun s => ?_) fun _ => rfl
  refine Rises.ite ((rises_declaredName _).bind fun _ => rises_pure _) ?_ s
  exact (rises_pure _).ite (rises_fail _)

theorem rises_functionOf (role : FunctionRole) : Rises w (g.functionOf role) := by
  refine rises_advance.bind fun _ => (rises_functionName role).bind fun _ => ?_
  refine (rises_expect _ _).bind fun _ => rises_parameters.bind fun _ => ?_
  refine (rises_expect _ _).bind fun _ => (rises_expect _ _).bind fun brace => ?_
  refine rises_freshId.bind fun _ => rises_ask (fun s => ?_) fun _ => rfl
  exact ((rises_inFunction (rises_blockAfterBrace hg true brace.line "function")).bind fun _ =>
    rises_pure _) s

/-! ## Operands -/

omit hg in
/-- What is read after a slash was read again, if it was one. -/
theorem rises_rescanned {f : PUnit → Reading Tree} (hf : Rises w (f ⟨⟩)) (s : State) :
    RisesAt w s (if s.current.isSlash = true then rescan >>= f else f ⟨⟩) :=
  .ite (fun hslash => (risesAt_rescan hslash).bind fun _ => hf) (hf s)

theorem rises_primary : Rises w g.primary := by
  refine rises_ask (fun s => rises_rescanned ?_ s) fun _ => rfl
  refine rises_ask (fun t => ?_) fun _ => rfl
  dsimp only
  split
  · exact rises_arrayLiteral hg t
  · exact rises_objectLiteral hg t
  · refine Rises.bind rises_advance (fun _ => (hg.expression false).bind fun _ => ?_) t
    exact (rises_expect _ _).bind fun _ => rises_pure _
  · next htag =>
    apply risesAt_named htag
    exact fun _ => (rises_modifyScope _).bind fun _ => rises_makeNode _ _
  · exact rises_leaf _ t
  · exact rises_leaf _ t
  · exact rises_leaf _ t
  · refine Rises.bind rises_advance (fun _ => Rises.ite ?_ (rises_makeNode _ _)) t
    exact (rises_modifyScope _).bind fun _ => rises_makeNode _ _
  · exact rises_fail _ t
  · exact rises_unexpected t

theorem rises_arguments : Rises w g.arguments := by
  have hclose : ∀ args : List Tree,
      Rises w (expect .rightParen .parenAfterArguments >>= fun _ => pure args) :=
    fun _ => (rises_expect _ _).bind fun _ => rises_pure _
  refine rises_advance.bind fun _ => rises_ifCheck (hclose []) ?_
  exact (rises_itemsBetweenCommas (hg.assignment false)).bind hclose

omit hg in
theorem rises_propertyName : Rises w propertyName := by
  refine rises_ask (fun s => ?_) fun _ => rfl
  dsimp only
  split
  · exact (rises_advance.bind fun _ => rises_pure _) s
  · exact (rises_advance.bind fun _ => (rises_warn _ _).bind fun _ => rises_pure _) s
  · exact rises_fail _ s

theorem rises_access (allowCall : Bool) (object : Tree) : Rises w (g.access allowCall object) := by
  have hcall : ∀ (line : Nat) (args : List Tree), Rises w
      (makeNode (.call .call object.data line) (object :: args) >>= fun node =>
        (pure (.again node) : Reading (Turn Tree Tree))) :=
    fun _ _ => (rises_makeNode _ _).bind fun _ => rises_pure _
  refine rises_ask (fun s => ?_) fun _ => rfl
  dsimp only
  split
  · refine Rises.bind rises_advance (fun _ => rises_propertyName.bind fun _ => ?_) s
    refine (rises_makeNode _ _).bind fun _ => (rises_makeNode _ _).bind fun _ => ?_
    exact rises_pure _
  · refine Rises.bind rises_advance (fun _ => (hg.expression false).bind fun _ => ?_) s
    refine (rises_expect _ _).bind fun _ => (rises_makeNode _ _).bind fun _ => ?_
    exact rises_pure _
  · refine Rises.ite ((rises_arguments hg).bind fun args => ?_) (rises_pure _) s
    exact ((rises_modifyScope _).bind fun _ => hcall _ args).ite (hcall _ args)
  · exact rises_pure _ s

theorem rises_memberOf (allowCall : Bool) : Rises w (g.memberOf allowCall) := by
  have hloop := rises_repeatTurns (g := g) (rises_access hg allowCall)
  refine rises_ask (fun s => ?_) fun _ => rfl
  dsimp only
  refine Rises.ite ?_ (((rises_functionOf hg .expression).bind hloop).ite
    ((rises_primary hg).bind hloop)) s
  refine rises_advance.bind fun t => (hg.member false).bind fun callee => rises_ifCheck ?_ ?_
  · exact (rises_arguments hg).bind fun _ => (rises_makeNode _ _).bind hloop
  · exact (rises_makeNode _ _).bind hloop

/-! ## Operators -/

theorem rises_steppedOperand : Rises w g.steppedOperand := by
  refine (rises_memberOf hg true).bind fun operand => rises_ask (fun s => ?_) fun _ => rfl
  refine Rises.ite (Rises.ite ?_ (rises_fail _)) (rises_pure _) s
  exact rises_advance.bind fun _ => rises_makeNode _ _

theorem rises_unaryOf : Rises w g.unaryOf := by
  refine rises_ask (fun s => ?_) fun _ => rfl
  dsimp only
  split
  · exact (rises_advance.bind fun _ => hg.unary.bind fun _ => rises_makeNode _ _) s
  · refine Rises.ite (rises_advance.bind fun _ => ?_) (rises_steppedOperand hg) s
    exact (rises_memberOf hg true).bind fun _ => (rises_makeNode _ _).ite (rises_failAt _ _)

omit hg in
theorem rises_binaryTurn (noIn : Bool) (level : Nat) {operand : Reading Tree}
    (ho : Rises w operand) (left : Tree) : Rises w (binaryTurn noIn level operand left) := by
  refine rises_ask (fun s => ?_) fun _ => rfl
  split
  · refine Rises.ite (rises_advance.bind fun _ => ho.bind fun _ => ?_) (rises_pure _) s
    exact (rises_makeNode _ _).bind fun _ => rises_pure _
  · exact rises_pure _ s

theorem rises_binaryOf (noIn : Bool) (levels : Nat) : Rises w (g.binaryOf noIn levels) := by
  induction levels with
  | zero => exact rises_unaryOf hg
  | succ levels ih => exact ih.bind (rises_repeatTurns (rises_binaryTurn noIn _ ih))

theorem rises_conditionalOf (noIn : Bool) : Rises w (g.conditionalOf noIn) := by
  refine (rises_binaryOf hg noIn binaryLevels).bind fun _ => ?_
  refine rises_ifCheck (rises_advance.bind fun _ => ?_) (rises_pure _)
  refine (hg.assignment false).bind fun _ => (rises_expect _ _).bind fun _ => ?_
  exact (hg.assignment noIn).bind fun _ => rises_makeNode _ _

theorem rises_assignmentOf (noIn : Bool) : Rises w (g.assignmentOf noIn) := by
  refine (rises_conditionalOf hg noIn).bind fun _ => ?_
  refine rises_ifCheck (Rises.ite ?_ (rises_fail _)) (rises_pure _)
  exact rises_advance.bind fun _ => (hg.assignment noIn).bind fun _ => rises_makeNode _ _

omit hg in
theorem rises_sequenceTurn {assignment : Reading Tree} (ha : Rises w assignment) (left : Tree) :
    Rises w (sequenceTurn assignment left) := by
  refine rises_ifCheck (rises_advance.bind fun _ => ha.bind fun _ => ?_) (rises_pure _)
  exact (rises_makeNode _ _).bind fun _ => rises_pure _

theorem rises_expressionOf (noIn : Bool) : Rises w (g.expressionOf noIn) := by
  have hassignment := rises_assignmentOf hg noIn
  exact hassignment.bind (rises_repeatTurns (rises_sequenceTurn hassignment))

end Grammar
end ScriptPress
