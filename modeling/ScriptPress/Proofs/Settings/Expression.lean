import ScriptPress.Proofs.Settings.Course

/-! # Expressions in a frame

The readers of expressions, one for each reader of the grammar.
-/
namespace ScriptPress

/-- A grammar whose readers for nested parts read in a frame as they do without. -/
structure Grammar.Even (v : Framing) (g : Grammar) : Prop where
  statement : ∀ top, Frames v (Tree.framed v) (g.statement top) (g.statement top)
  assignment : ∀ noIn, Frames v (Tree.framed v) (g.assignment noIn) (g.assignment noIn)
  expression : ∀ noIn, Frames v (Tree.framed v) (g.expression noIn) (g.expression noIn)
  unary : Frames v (Tree.framed v) g.unary g.unary
  member : ∀ allowCall, Frames v (Tree.framed v) (g.member allowCall) (g.member allowCall)

namespace Grammar
variable {α β γ δ : Type} {v : Framing} {g : Grammar} {φ : α → γ} {item : Reading α}
  {item' : Reading γ}

/-! ## Loops -/

theorem frames_repeatTurns {ψ : β → δ} {step : α → Reading (Turn α β)}
    {step' : γ → Reading (Turn γ δ)}
    (h : ∀ a, Frames v (Turn.map φ ψ) (step a) (step' (φ a))) (a : α) :
    Frames v ψ (g.repeatTurns step a) (g.repeatTurns step' (φ a)) := frames_iterate h _ a

theorem frames_separatedTurn (hitem : Frames v φ item item') (items : List α) :
    Frames v (Turn.map (List.map φ) (List.map φ)) (separatedTurn item items)
      (separatedTurn item' (items.map φ)) := by
  refine hitem.bind fun a => (frames_accept _).bind fun _ => .ite rfl ?_ ?_ <;>
    exact frames_pure (by simp [Turn.map])

theorem frames_itemsBetweenCommas (hitem : Frames v φ item item') :
    Frames v (List.map φ) (g.itemsBetweenCommas item) (g.itemsBetweenCommas item') :=
  frames_repeatTurns (frames_separatedTurn hitem) []

theorem frames_untilTurn {ends : Token → Bool} (hends : ∀ t : Token, ends (t.framed v) = ends t)
    (hitem : Frames v φ item item') (items : List α) :
    Frames v (Turn.map (List.map φ) (List.map φ)) (untilTurn ends item items)
      (untilTurn ends item' (items.map φ)) := by
  refine frames_get fun s => .ite (hends s.current) (frames_pure rfl) ?_
  exact hitem.bind fun a => frames_pure (by simp [Turn.map])

theorem frames_itemsUntil {ends : Token → Bool} (hends : ∀ t : Token, ends (t.framed v) = ends t)
    (hitem : Frames v φ item item') (first : List α) :
    Frames v (List.map φ) (g.itemsUntil ends item first)
      (g.itemsUntil ends item' (first.map φ)) :=
  frames_repeatTurns (frames_untilTurn hends hitem) first

/-! ## Literals -/

theorem frames_leaf {data : Token → Node} (h : ∀ t, data (t.framed v) = (data t).framed v) :
    Frames v (Tree.framed v) (advance >>= fun t => makeNode (data t) [])
      (advance >>= fun t => makeNode (data t) []) :=
  frames_advance.bind fun t => frames_makeNode (h t) rfl

variable (hg : g.Even v)
include hg

theorem frames_arrayElement (elements : List Tree) :
    Frames v (Turn.map (List.map (Tree.framed v)) (List.map (Tree.framed v)))
      (g.arrayElement elements) (g.arrayElement (elements.map (Tree.framed v))) := by
  refine frames_ifCheck (frames_pure rfl) (frames_ifCheck ?_ ?_)
  · refine frames_advance.bind fun t => ?_
    exact (frames_makeNode rfl rfl).bind fun _ => frames_pure (by simp [Turn.map])
  · refine (hg.assignment false).bind fun element => frames_ifCheck ?_ ?_
    · refine frames_advance.bind fun t => frames_ifCheck ?_ ?_
      · exact (frames_warn _ rfl).bind fun _ => frames_pure (by simp [Turn.map])
      · exact frames_pure (by simp [Turn.map])
    · exact frames_ifCheck (frames_pure (by simp [Turn.map])) (frames_fail _)

theorem frames_arrayLiteral : Frames v (Tree.framed v) g.arrayLiteral g.arrayLiteral := by
  refine frames_advance.bind fun opening => ?_
  refine (frames_repeatTurns (frames_arrayElement hg) []).bind fun elements => ?_
  exact (frames_expect _ _).bind fun _ => frames_makeNode rfl rfl

omit hg in
theorem frames_propertyKey : Frames v (Tree.framed v) propertyKey propertyKey := by
  refine frames_get fun s => ?_
  simp only [State.current_framed, Token.tag_framed]
  split
  · exact frames_leaf fun _ => rfl
  · refine frames_advance.bind fun t => ?_
    exact (frames_warn _ rfl).bind fun _ => frames_makeNode rfl rfl
  · exact frames_leaf fun _ => rfl
  · exact frames_leaf fun t => (framed_number t.shown t.line).symm
  · exact frames_fail _

theorem frames_objectProperty (parts : List Tree) :
    Frames v (Turn.map (List.map (Tree.framed v)) (List.map (Tree.framed v)))
      (g.objectProperty parts) (g.objectProperty (parts.map (Tree.framed v))) := by
  refine frames_ifCheck (frames_pure rfl) (frames_propertyKey.bind fun key => ?_)
  refine (frames_expect _ _).bind fun _ => (hg.assignment false).bind fun value => ?_
  refine frames_ifCheck (frames_advance.bind fun t => frames_ifCheck ?_ ?_) (frames_ifCheck ?_ ?_)
  · exact (frames_warn _ rfl).bind fun _ => frames_pure (by simp [Turn.map])
  · exact frames_pure (by simp [Turn.map])
  · exact frames_pure (by simp [Turn.map])
  · exact frames_fail _

theorem frames_objectLiteral : Frames v (Tree.framed v) g.objectLiteral g.objectLiteral := by
  refine frames_advance.bind fun opening => ?_
  refine (frames_repeatTurns (frames_objectProperty hg) []).bind fun parts => ?_
  exact (frames_expect _ _).bind fun _ => frames_makeNode rfl rfl

/-! ## Functions -/

theorem frames_blockAfterBrace (top : Bool) {line line' : Nat} (construct : String)
    (h : line' = line + v.before) : Frames v (Tree.framed v)
      (g.blockAfterBrace top line construct) (g.blockAfterBrace top line' construct) := by
  refine frames_freshId.bind fun id => ?_
  refine (frames_itemsUntil (fun _ => rfl) (hg.statement top) []).bind fun statements => ?_
  refine frames_takeComments.bind fun comments => (frames_expect _ _).bind fun _ => ?_
  refine frames_pure ?_
  rw [framed_withComments (.inr rfl), Tree.framed_node, Tree.framedAll_eq, h]
  rfl

omit hg in
theorem frames_parameters : Frames v id g.parameters g.parameters := by
  refine frames_ifCheck (frames_pure rfl) ?_
  have hname : Frames v id (declaredName .formalParameter >>= fun name => pure name.1)
      (declaredName .formalParameter >>= fun name => pure name.1) :=
    (frames_declaredName _).bind fun _ => frames_pure rfl
  have hall := frames_itemsBetweenCommas (g := g) hname
  rwa [List.map_id_fun] at hall

omit hg in
theorem frames_functionName (role : FunctionRole) :
    Frames v id (functionName role) (functionName role) := by
  refine frames_get fun s => .ite rfl ?_ (.ite rfl (frames_pure rfl) (frames_fail _))
  exact (frames_declaredName _).bind fun _ => frames_pure rfl

omit hg in
theorem frames_inFunction {body : Reading α} {body' : Reading γ} (id : NodeId)
    (hbody : Frames v φ body body') :
    Frames v (fun p => (φ p.1, p.2)) (inFunction id body) (inFunction id body') := by
  refine frames_get fun s => (frames_set rfl).bind fun _ => hbody.bind fun a => ?_
  refine frames_get fun t => ?_
  exact Frames.bind (frames_modify fun _ => rfl) fun _ => frames_pure rfl

omit hg in
theorem framed_functionNode (data : FunctionData) (line : Nat) (enclosing? : Option NodeId)
    (inner : Scope) : (functionNode data line enclosing? inner).framed v
      = functionNode data (line + v.before) enclosing? inner := by
  simp only [functionNode, Node.framed]
  rw [Properties.framed_fixed _ _ rfl, Properties.framed_fixed _ _ rfl,
    Properties.framed_fixed _ _ rfl, Properties.framed_fixed _ _ rfl,
    Properties.framed_putIf _ _ rfl]
  rfl

theorem frames_functionOf (role : FunctionRole) :
    Frames v (Tree.framed v) (g.functionOf role) (g.functionOf role) := by
  refine frames_advance.bind fun opening => (frames_functionName role).bind fun name => ?_
  refine (frames_expect _ _).bind fun _ => frames_parameters.bind fun params => ?_
  refine (frames_expect _ _).bind fun _ => (frames_expect _ _).bind fun brace => ?_
  refine frames_freshId.bind fun id => frames_get fun s => ?_
  refine (frames_inFunction id (frames_blockAfterBrace hg true "function" rfl)).bind fun p => ?_
  refine frames_pure ?_
  rw [Tree.framed_node, framed_functionNode, Tree.framedAll_eq]
  rfl

/-! ## Operands -/

omit hg in
/-- What is read after a slash was read again, if it was one. -/
theorem frames_rescanned {f : PUnit → Reading Tree} (t : Token)
    (hf : Frames v (Tree.framed v) (f ⟨⟩) (f ⟨⟩)) :
    Frames v (Tree.framed v) (if t.isSlash = true then rescan >>= f else f ⟨⟩)
      (if (t.framed v).isSlash = true then rescan >>= f else f ⟨⟩) :=
  .ite rfl (frames_rescan.bind fun _ => hf) hf

theorem frames_primary : Frames v (Tree.framed v) g.primary g.primary := by
  refine frames_get fun s => frames_rescanned s.current (frames_get fun s => ?_)
  simp only [State.current_framed, Token.tag_framed, Token.shown_framed]
  split
  · exact frames_arrayLiteral hg
  · exact frames_objectLiteral hg
  · refine frames_advance.bind fun _ => (hg.expression false).bind fun inner => ?_
    exact (frames_expect _ _).bind fun _ => frames_pure rfl
  · refine frames_advance.bind fun t => (frames_warnOfKeyword _ rfl).bind fun _ => ?_
    exact (frames_noteUse _).bind fun _ => frames_makeNode rfl rfl
  · exact frames_leaf fun t => (framed_number t.shown t.line).symm
  · exact frames_leaf fun _ => rfl
  · exact frames_leaf fun _ => rfl
  · refine frames_advance.bind fun t => .ite rfl ?_ (frames_makeNode rfl rfl)
    exact (frames_modifyScope _).bind fun _ => frames_makeNode rfl rfl
  · exact frames_fail _
  · exact frames_unexpected

theorem frames_arguments :
    Frames v (List.map (Tree.framed v)) g.arguments g.arguments := by
  have hclose : ∀ args : List Tree, Frames v (List.map (Tree.framed v))
      (expect .rightParen .parenAfterArguments >>= fun _ => pure args)
      (expect .rightParen .parenAfterArguments >>= fun _ => pure (args.map (Tree.framed v))) :=
    fun args => (frames_expect _ _).bind fun _ => frames_pure rfl
  refine frames_advance.bind fun _ => frames_ifCheck (hclose []) ?_
  exact (frames_itemsBetweenCommas (hg.assignment false)).bind hclose

omit hg in
theorem frames_propertyName : Frames v id propertyName propertyName := by
  refine frames_get fun s => ?_
  simp only [State.current_framed, Token.tag_framed]
  split
  · exact frames_advance.bind fun _ => frames_pure rfl
  · exact frames_advance.bind fun t => (frames_warn _ rfl).bind fun _ => frames_pure rfl
  · exact frames_fail _

theorem frames_access (allowCall : Bool) (object : Tree) :
    Frames v (Turn.map (Tree.framed v) (Tree.framed v)) (g.access allowCall object)
      (g.access allowCall (object.framed v)) := by
  refine frames_get fun s => ?_
  simp only [State.current_framed, Token.tag_framed]
  split
  · refine frames_advance.bind fun t => frames_propertyName.bind fun name => ?_
    refine (frames_makeNode rfl rfl).bind fun _ => ?_
    exact (frames_makeNode rfl rfl).bind fun _ => frames_pure rfl
  · refine frames_advance.bind fun t => (hg.expression false).bind fun index => ?_
    refine (frames_expect _ _).bind fun _ => ?_
    exact (frames_makeNode rfl rfl).bind fun _ => frames_pure rfl
  · refine .ite rfl ((frames_arguments hg).bind fun args => ?_) (frames_pure rfl)
    have hcall : Frames v (Tree.framed v)
        (makeNode (.call .call object.data s.current.line) (object :: args))
        (makeNode (.call .call (object.framed v).data (s.current.line + v.before))
          (object.framed v :: args.map (Tree.framed v))) :=
      frames_makeNode (by rw [Tree.data_framed, framed_call]) rfl
    refine .ite (by rw [Tree.data_framed, Node.calleeName?_framed]) ?_ ?_
    · exact frames_needActivation.bind fun _ => hcall.bind fun _ => frames_pure rfl
    · exact hcall.bind fun _ => frames_pure rfl
  · exact frames_pure rfl

theorem frames_memberOf (allowCall : Bool) :
    Frames v (Tree.framed v) (g.memberOf allowCall) (g.memberOf allowCall) := by
  have hloop := frames_repeatTurns (g := g) (frames_access hg allowCall)
  refine frames_get fun s => ?_
  simp only [State.current_framed, Token.tag_framed]
  refine .ite rfl ?_ (.ite rfl ((frames_functionOf hg .expression).bind hloop)
    ((frames_primary hg).bind hloop))
  · have hnew : ∀ (callee : Tree) (line : Nat) (args : List Tree), Frames v (Tree.framed v)
        (makeNode (.call .kwNew callee.data line) (callee :: args) >>= fun object =>
          g.repeatTurns (g.access allowCall) object)
        (makeNode (.call .kwNew (callee.framed v).data (line + v.before))
          (callee.framed v :: args.map (Tree.framed v)) >>= fun object =>
          g.repeatTurns (g.access allowCall) object) := fun callee line args =>
      (frames_makeNode (by rw [Tree.data_framed, framed_call]) rfl).bind hloop
    refine frames_advance.bind fun t => (hg.member false).bind fun callee => frames_ifCheck ?_ ?_
    · exact (frames_arguments hg).bind fun args => hnew callee t.line args
    · exact hnew callee t.line []

/-! ## Operators -/

theorem frames_steppedOperand : Frames v (Tree.framed v) g.steppedOperand g.steppedOperand := by
  refine (frames_memberOf hg true).bind fun operand => frames_get fun s => ?_
  refine .ite rfl (.ite (by rw [Tree.tag_framed]) ?_ (frames_fail _)) (frames_pure rfl)
  exact frames_advance.bind fun t => frames_makeNode (framed_step _ _ _).symm rfl

theorem frames_unaryOf : Frames v (Tree.framed v) g.unaryOf g.unaryOf := by
  refine frames_get fun s => ?_
  have hoperator : unaryOperator? (s.current.framed v) = unaryOperator? s.current := rfl
  simp only [State.current_framed, hoperator]
  split
  · refine frames_advance.bind fun _ => hg.unary.bind fun operand => ?_
    exact frames_makeNode (framed_unary _ _).symm rfl
  · refine .ite rfl (frames_advance.bind fun _ => ?_) (frames_steppedOperand hg)
    refine (frames_memberOf hg true).bind fun operand => .ite (by rw [Tree.tag_framed]) ?_ ?_
    · exact frames_makeNode (framed_step _ _ _).symm rfl
    · exact frames_failAt _ rfl

omit hg in
theorem frames_binaryTurn (noIn : Bool) (level : Nat) {operand : Reading Tree}
    (ho : Frames v (Tree.framed v) operand operand) (left : Tree) :
    Frames v (Turn.map (Tree.framed v) (Tree.framed v)) (binaryTurn noIn level operand left)
      (binaryTurn noIn level operand (left.framed v)) := by
  refine frames_get fun s => ?_
  have hoperator : binaryOperator? noIn (s.current.framed v) = binaryOperator? noIn s.current := rfl
  simp only [State.current_framed, hoperator]
  split
  · refine .ite rfl (frames_advance.bind fun t => ho.bind fun right => ?_) (frames_pure rfl)
    refine (frames_makeNode ?_ rfl).bind fun _ => frames_pure rfl
    rw [Tree.data_framed, Tree.data_framed, framed_binary]
    rfl
  · exact frames_pure rfl

theorem frames_binaryOf (noIn : Bool) (levels : Nat) :
    Frames v (Tree.framed v) (g.binaryOf noIn levels) (g.binaryOf noIn levels) := by
  induction levels with
  | zero => exact frames_unaryOf hg
  | succ levels ih => exact ih.bind (frames_repeatTurns (frames_binaryTurn noIn _ ih))

theorem frames_conditionalOf (noIn : Bool) :
    Frames v (Tree.framed v) (g.conditionalOf noIn) (g.conditionalOf noIn) := by
  refine (frames_binaryOf hg noIn binaryLevels).bind fun condition => ?_
  refine frames_ifCheck (frames_advance.bind fun t => ?_) (frames_pure rfl)
  refine (hg.assignment false).bind fun yes => (frames_expect _ _).bind fun _ => ?_
  exact (hg.assignment noIn).bind fun no => frames_makeNode rfl rfl

theorem frames_assignmentOf (noIn : Bool) :
    Frames v (Tree.framed v) (g.assignmentOf noIn) (g.assignmentOf noIn) := by
  refine (frames_conditionalOf hg noIn).bind fun target => ?_
  refine frames_ifCheck (.ite (by rw [Tree.tag_framed]) ?_ (frames_fail _)) (frames_pure rfl)
  refine frames_advance.bind fun t => (hg.assignment noIn).bind fun value => ?_
  refine frames_makeNode ?_ rfl
  rw [Tree.data_framed, Tree.data_framed, framed_assign]
  rfl

omit hg in
theorem frames_sequenceTurn {assignment : Reading Tree}
    (ha : Frames v (Tree.framed v) assignment assignment) (left : Tree) :
    Frames v (Turn.map (Tree.framed v) (Tree.framed v)) (sequenceTurn assignment left)
      (sequenceTurn assignment (left.framed v)) := by
  refine frames_ifCheck (frames_advance.bind fun t => ha.bind fun right => ?_) (frames_pure rfl)
  exact (frames_makeNode rfl rfl).bind fun _ => frames_pure rfl

theorem frames_expressionOf (noIn : Bool) :
    Frames v (Tree.framed v) (g.expressionOf noIn) (g.expressionOf noIn) := by
  have hassignment := frames_assignmentOf hg noIn
  exact hassignment.bind (frames_repeatTurns (frames_sequenceTurn hassignment))

end Grammar
end ScriptPress
