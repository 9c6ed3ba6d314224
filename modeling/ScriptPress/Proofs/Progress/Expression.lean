import ScriptPress.Proofs.Insertion.Expression
import ScriptPress.Proofs.Progress.Course

/-! # The progress of expressions

The readers of expressions, one for each reader of the grammar. Each of them takes a token, and
takes one before it goes on to a nested part.
-/
namespace ScriptPress

/-- Two grammars whose readers for nested parts take tokens and do the same where less than a
number of characters is left. That many turns are not too many for their loops. -/
structure Grammar.Concurring (n : Nat) (g g' : Grammar) : Prop where
  bound : n ≤ g.bound
  bound' : n ≤ g'.bound
  statement : ∀ top, Grammar.Past n (g.statement top) (g'.statement top)
  assignment : ∀ noIn, Grammar.Past n (g.assignment noIn) (g'.assignment noIn)
  expression : ∀ noIn, Grammar.Past n (g.expression noIn) (g'.expression noIn)
  unary : Grammar.Past n g.unary g'.unary
  member : ∀ allowCall, Grammar.Past n (g.member allowCall) (g'.member allowCall)

namespace Grammar
variable {α β : Type} {n : Nat} {P : α → Prop} {Q : β → Prop} {g g' : Grammar}
  {item item' : Reading α}

/-! ## Loops -/

theorem onward_repeatTurns (hg : Concurring n g g') {step step' : α → Reading (Turn α β)}
    (hstep : ∀ a, Concurs n Turn.IsAgain (step a) (step' a)) (a : α) :
    Onward n (g.repeatTurns step a) (g'.repeatTurns step' a) :=
  onward_iterate hstep (hg.bound.trans (Nat.le_succ _)) (hg.bound'.trans (Nat.le_succ _)) a

theorem concurs_separatedTurn {Q : Turn (List α) (List α) → Prop} (hitem : Past n item item')
    (items : List α) : Concurs n Q (separatedTurn item items) (separatedTurn item' items) :=
  hitem.past fun _ => (onward_accept _).bind fun _ => (onward_pure _).ite (onward_pure _)

theorem onward_itemsBetweenCommas (hg : Concurring n g g') (hitem : Past n item item') :
    Onward n (g.itemsBetweenCommas item) (g'.itemsBetweenCommas item') :=
  onward_repeatTurns hg (concurs_separatedTurn hitem) []

theorem concurs_untilTurn (ends : Token → Bool) (hitem : Past n item item') (items : List α) :
    Concurs n Turn.IsAgain (untilTurn ends item items) (untilTurn ends item' items) :=
  concurs_ask fun s hs => .ite (fun _ => concurs_pure id s hs)
    (hitem.past (fun _ => onward_pure _) s hs)

theorem onward_itemsUntil (hg : Concurring n g g') (ends : Token → Bool)
    (hitem : Past n item item') (first : List α) :
    Onward n (g.itemsUntil ends item first) (g'.itemsUntil ends item' first) :=
  onward_repeatTurns hg (concurs_untilTurn ends hitem) first

/-! ## Literals -/

/-- A node of one token. -/
theorem atToken_leaf {Q : Tree → Prop} (data : Token → Node) :
    AtToken n Q (advance >>= fun t => makeNode (data t) [])
      (advance >>= fun t => makeNode (data t) []) :=
  atToken_advance.past fun _ => (blind_makeNode _ _).onward

theorem concurs_arrayElement (hg : Concurring n g g') (elements : List Tree) :
    Concurs n Turn.IsAgain (g.arrayElement elements) (g'.arrayElement elements) := by
  refine concurs_ifCheck (by decide) (concurs_pure id).atToken (concurs_ifCheck (by decide) ?_ ?_)
  · exact atToken_advance.past fun _ => (blind_makeNode _ _).onward.bind fun _ => onward_pure _
  · refine (hg.assignment false).past fun element => concurs_ifCheck (by decide) (Concurs.atToken ?_) ?_
    · refine onward_advance.bind fun _ => concurs_ifCheck (by decide) ?_ (onward_pure _)
      exact ((onward_warn _ _).bind fun _ => onward_pure _).atToken
    · exact concurs_ifCheck (by decide) (onward_pure _).atToken (concurs_fail _)

theorem atToken_arrayLiteral {Q : Tree → Prop} (hg : Concurring n g g') :
    AtToken (n + 1) Q g.arrayLiteral g'.arrayLiteral := by
  refine atToken_advance.behind fun opening => ?_
  refine (onward_repeatTurns hg (concurs_arrayElement hg) []).bind fun elements => ?_
  exact (past_expect (by decide)).past fun _ => (blind_makeNode _ _).onward

theorem past_propertyKey : Past n propertyKey propertyKey := by
  refine concurs_ask fun s hs => ?_
  dsimp only
  split
  · next h => exact atToken_leaf _ s hs (by simp [h])
  · next h =>
    refine atToken_advance.past (fun _ => ?_) s hs (by simp [h])
    exact (onward_warn _ _).bind fun _ => (blind_makeNode _ _).onward
  · next h => exact atToken_leaf _ s hs (by simp [h])
  · next h => exact atToken_leaf _ s hs (by simp [h])
  · exact concurs_fail _ s hs

theorem concurs_objectProperty (hg : Concurring n g g') (parts : List Tree) :
    Concurs n Turn.IsAgain (g.objectProperty parts) (g'.objectProperty parts) := by
  refine concurs_ifCheck (by decide) (concurs_pure id).atToken (past_propertyKey.past fun key => ?_)
  refine (past_expect (by decide)).past fun _ => (hg.assignment false).past fun value => ?_
  refine concurs_ifCheck (by decide) (Concurs.atToken ?_) ?_
  · refine onward_advance.bind fun _ => concurs_ifCheck (by decide) ?_ (onward_pure _)
    exact ((onward_warn _ _).bind fun _ => onward_pure _).atToken
  · exact concurs_ifCheck (by decide) (onward_pure _).atToken (concurs_fail _)

theorem atToken_objectLiteral {Q : Tree → Prop} (hg : Concurring n g g') :
    AtToken (n + 1) Q g.objectLiteral g'.objectLiteral := by
  refine atToken_advance.behind fun opening => ?_
  refine (onward_repeatTurns hg (concurs_objectProperty hg) []).bind fun parts => ?_
  exact (past_expect (by decide)).past fun _ => (blind_makeNode _ _).onward

/-! ## Functions -/

theorem past_blockAfterBrace (hg : Concurring n g g') (top : Bool) (line : Nat)
    (construct : String) :
    Past n (g.blockAfterBrace top line construct) (g'.blockAfterBrace top line construct) := by
  refine blind_freshId.onward.bind fun id => ?_
  refine (onward_itemsUntil hg _ (hg.statement top) []).bind fun statements => ?_
  refine onward_takeComments.bind fun comments => ?_
  exact (past_expect (by decide)).past fun _ => onward_pure _

/-- The name of a parameter takes a token. -/
theorem past_parameter : Past n (declaredName .formalParameter >>= fun name => pure name.1)
    (declaredName .formalParameter >>= fun name => pure name.1) :=
  (past_declaredName _).past fun _ => onward_pure _

theorem onward_parameters (hg : Concurring n g g') : Onward n g.parameters g'.parameters :=
  concurs_ifCheck (by decide) (onward_pure _).atToken (onward_itemsBetweenCommas hg past_parameter)

theorem onward_functionName (role : FunctionRole) :
    Onward n (functionName role) (functionName role) := by
  refine concurs_ask fun s hs => .ite (fun _ => ?_) (.ite (fun _ => ?_) (concurs_fail _ s hs))
  · exact ((past_declaredName _).past fun _ => onward_pure _) s hs
  · exact onward_pure _ s hs

theorem past_functionOf (hg : Concurring n g g') (role : FunctionRole) :
    Past (n + 1) (g.functionOf role) (g'.functionOf role) := by
  refine onward_advance.bind fun opening => (onward_functionName role).bind fun name => ?_
  refine (past_expect (by decide)).behind fun _ => (onward_parameters hg).bind fun params => ?_
  refine (past_expect (by decide)).past fun _ => (past_expect (by decide)).past fun brace => ?_
  refine blind_freshId.onward.bind fun id => concurs_ask fun s hs => ?_
  refine (onward_inFunction (past_blockAfterBrace hg true brace.line "function").onward).bind
    (fun body => ?_) s hs
  exact onward_pure _

/-! ## Operands -/

/-- What is read after a slash was read again, if it was one. -/
theorem concurs_rescanned {f f' : PUnit → Reading β} (hf : Concurs n Q (f ⟨⟩) (f' ⟨⟩)) :
    Concurs n Q
      (get >>= fun s : State => if s.current.isSlash = true then rescan >>= f else f ⟨⟩)
      (get >>= fun s : State => if s.current.isSlash = true then rescan >>= f' else f' ⟨⟩) :=
  concurs_ask fun s hs =>
    .ite (fun h => (concursAt_rescan hs.placed h).bind hs fun _ => hf) (hf s hs)

theorem past_primary (hg : Concurring n g g') : Past (n + 1) g.primary g'.primary := by
  refine concurs_rescanned (concurs_ask fun s hs => ?_)
  dsimp only
  split
  · next h => exact atToken_arrayLiteral hg s hs (by simp [h])
  · next h => exact atToken_objectLiteral hg s hs (by simp [h])
  · next h =>
    refine atToken_advance.behind (fun _ => ?_) s hs (by simp [h])
    refine (hg.expression false).past fun inner => ?_
    exact (past_expect (by decide)).past fun _ => onward_pure _
  · next h =>
    refine atToken_advance.past (fun _ => ?_) s hs (by simp [h])
    refine (blind_warnOfKeyword _ _).onward.bind fun _ => ?_
    exact (blind_noteUse _).onward.bind fun _ => (blind_makeNode _ _).onward
  · next h => exact atToken_leaf _ s hs (by simp [h])
  · next h => exact atToken_leaf _ s hs (by simp [h])
  · next h => exact atToken_leaf _ s hs (by simp [h])
  · next h =>
    refine atToken_advance.past (fun _ => ?_) s hs (by simp [h])
    exact ((blind_modifyScope _).onward.bind fun _ => (blind_makeNode _ _).onward).ite
      (blind_makeNode _ _).onward
  · exact concurs_fail _ s hs
  · exact concurs_unexpected s hs

theorem atToken_arguments {Q : List Tree → Prop} (hg : Concurring n g g') :
    AtToken (n + 1) Q g.arguments g'.arguments := by
  have hclose : ∀ args : List Tree,
      Onward n (expect .rightParen .parenAfterArguments >>= fun _ => pure args)
        (expect .rightParen .parenAfterArguments >>= fun _ => pure args) :=
    fun _ => (past_expect (by decide)).past fun _ => onward_pure _
  refine atToken_advance.behind fun _ => concurs_ifCheck (by decide) (hclose []).atToken ?_
  exact (onward_itemsBetweenCommas hg (hg.assignment false)).bind hclose

theorem onward_propertyName : Onward n propertyName propertyName := by
  refine concurs_ask fun s hs => ?_
  dsimp only
  split
  · exact (onward_advance.bind fun _ => onward_pure _) s hs
  · exact (onward_advance.bind fun _ => (onward_warn _ _).bind fun _ => onward_pure _) s hs
  · exact concurs_fail _ s hs

theorem concurs_access (hg : Concurring n g g') (allowCall : Bool) (object : Tree) :
    Concurs (n + 1) Turn.IsAgain (g.access allowCall object) (g'.access allowCall object) := by
  refine concurs_ask fun s hs => ?_
  dsimp only
  split
  · next h =>
    refine atToken_advance.past (fun _ => ?_) s hs (by simp [h])
    refine onward_propertyName.bind fun name => (blind_makeNode _ _).onward.bind fun name => ?_
    exact (blind_makeNode _ _).onward.bind fun _ => onward_pure _
  · next h =>
    refine atToken_advance.behind (fun _ => ?_) s hs (by simp [h])
    refine (hg.expression false).past fun index => (past_expect (by decide)).past fun _ => ?_
    exact (blind_makeNode _ _).onward.bind fun _ => onward_pure _
  · next h =>
    refine .ite (fun _ => ?_) (concurs_pure id s hs)
    have hcall : ∀ args, Onward (n + 1)
        (makeNode (.call .call object.data s.current.line) (object :: args) >>= fun call =>
          pure (Turn.again call : Turn Tree Tree)) (makeNode _ _ >>= _) :=
      fun args => (blind_makeNode _ _).onward.bind fun _ => onward_pure _
    refine (atToken_arguments hg).past (fun args => ?_) s hs (by simp [h])
    exact (blind_needActivation.onward.bind fun _ => hcall args).ite (hcall args)
  · exact concurs_pure id s hs

theorem past_memberOf (hg : Concurring n g g') (allowCall : Bool) :
    Past (n + 1) (g.memberOf allowCall) (g'.memberOf allowCall) := by
  have hloop : ∀ object, Onward n (g.repeatTurns (g.access allowCall) object)
      (g'.repeatTurns (g'.access allowCall) object) :=
    onward_repeatTurns hg fun object => (concurs_access hg allowCall object).lower (Nat.le_succ n)
  refine concurs_ask fun s hs => ?_
  dsimp only
  split
  · next h =>
    have hnew : ∀ (callee : Tree) (line : Nat) (args : List Tree), Onward n
        (makeNode (.call .kwNew callee.data line) (callee :: args) >>= fun object =>
          g.repeatTurns (g.access allowCall) object)
        (makeNode (.call .kwNew callee.data line) (callee :: args) >>= fun object =>
          g'.repeatTurns (g'.access allowCall) object) :=
      fun _ _ _ => (blind_makeNode _ _).onward.bind hloop
    refine atToken_advance.behind (fun _ => ?_) s hs (by simp [beq_iff_eq.mp h])
    refine (hg.member false).past fun callee => concurs_ifCheck (by decide) ?_ (hnew callee _ [])
    exact ((atToken_arguments hg).lower (Nat.le_succ n)).past fun args => hnew callee _ args
  · refine .ite (fun _ => ?_) ?_
    · exact (past_functionOf hg .expression).behind hloop s hs
    · exact (past_primary hg).behind hloop s hs

/-! ## Operators -/

theorem past_steppedOperand (hg : Concurring n g g') :
    Past (n + 1) g.steppedOperand g'.steppedOperand := by
  refine (past_memberOf hg true).past fun operand => concurs_ask fun s hs => ?_
  refine .ite (fun _ => .ite (fun _ => ?_) (concurs_fail _ s hs)) (onward_pure operand s hs)
  exact (onward_advance.bind fun _ => (blind_makeNode _ _).onward) s hs

theorem past_unaryOf (hg : Concurring n g g') : Past (n + 1) g.unaryOf g'.unaryOf := by
  refine concurs_ask fun s hs => ?_
  dsimp only
  split
  · next operator h =>
    refine atToken_advance.behind (fun _ => ?_) s hs (unaryOperator_tag h)
    exact hg.unary.past fun operand => (blind_makeNode _ _).onward
  · refine .ite (fun h => ?_) (past_steppedOperand hg s hs)
    have hend : s.current.tag ≠ .endOfInput := by
      rcases isStep_tag h with h | h <;> simp [h]
    refine atToken_advance.past (fun _ => (past_memberOf hg true).past fun operand => ?_) s hs hend
    exact (blind_makeNode _ _).onward.ite (concurs_failAt _ _)

theorem concurs_binaryTurn {noIn : Bool} {level : Nat} {operand operand' : Reading Tree}
    (ho : Past n operand operand') (left : Tree) :
    Concurs n Turn.IsAgain (binaryTurn noIn level operand left)
      (binaryTurn noIn level operand' left) := by
  refine concurs_ask fun s hs => ?_
  split
  · next tag datum h =>
    have hend : s.current.tag ≠ .endOfInput := fun hend => by
      rw [binaryOperator_none (.inl hend)] at h
      cases h
    refine .ite (fun _ => ?_) (concurs_pure id s hs)
    refine atToken_advance.past (fun _ => ho.past fun right => ?_) s hs hend
    exact (blind_makeNode _ _).onward.bind fun _ => onward_pure _
  · exact concurs_pure id s hs

theorem past_binaryOf (hg : Concurring n g g') (noIn : Bool) (levels : Nat) :
    Past (n + 1) (g.binaryOf noIn levels) (g'.binaryOf noIn levels) := by
  induction levels with
  | zero => exact past_unaryOf hg
  | succ levels ih =>
    exact ih.behind (onward_repeatTurns hg (concurs_binaryTurn (ih.lower (Nat.le_succ n))))

theorem past_conditionalOf (hg : Concurring n g g') (noIn : Bool) :
    Past (n + 1) (g.conditionalOf noIn) (g'.conditionalOf noIn) := by
  refine (past_binaryOf hg noIn binaryLevels).behind fun condition => ?_
  refine concurs_ifCheck (by decide) (Concurs.atToken ?_) (onward_pure _)
  refine onward_advance.bind fun _ => (hg.assignment false).past fun yes => ?_
  refine (past_expect (by decide)).past fun _ => (hg.assignment noIn).past fun no => ?_
  exact (blind_makeNode _ _).onward

theorem past_assignmentOf (hg : Concurring n g g') (noIn : Bool) :
    Past (n + 1) (g.assignmentOf noIn) (g'.assignmentOf noIn) := by
  refine (past_conditionalOf hg noIn).behind fun target => ?_
  refine concurs_ifCheck (by decide) (Concurs.atToken (.ite ?_ (concurs_fail _))) (onward_pure _)
  refine onward_advance.bind fun _ => (hg.assignment noIn).past fun value => ?_
  exact (blind_makeNode _ _).onward

theorem concurs_sequenceTurn {assignment assignment' : Reading Tree}
    (ha : Past n assignment assignment') (left : Tree) :
    Concurs n Turn.IsAgain (sequenceTurn assignment left) (sequenceTurn assignment' left) := by
  refine concurs_ifCheck (by decide) (atToken_advance.past fun _ => ?_) (concurs_pure id)
  exact ha.past fun right => (blind_makeNode _ _).onward.bind fun _ => onward_pure _

theorem past_expressionOf (hg : Concurring n g g') (noIn : Bool) :
    Past (n + 1) (g.expressionOf noIn) (g'.expressionOf noIn) :=
  (past_assignmentOf hg noIn).behind (onward_repeatTurns hg
    (concurs_sequenceTurn ((past_assignmentOf hg noIn).lower (Nat.le_succ n))))

end Grammar
end ScriptPress
