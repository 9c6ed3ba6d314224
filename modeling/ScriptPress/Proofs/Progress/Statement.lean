import ScriptPress.Proofs.Insertion.Statement
import ScriptPress.Proofs.Progress.Expression

/-! # The progress of statements

The readers of statements, one for each reader of the grammar. What ends a statement without its
semicolon takes no token, but the statement has taken one before.
-/
namespace ScriptPress.Grammar
variable {n : Nat} {g g' : Grammar}

theorem past_block (hg : Concurring n g g') (construct : String) :
    Past (n + 1) (g.block construct) (g'.block construct) :=
  (past_expect (by decide)).behind fun brace =>
    (past_blockAfterBrace hg false brace.line construct).onward

theorem past_declaration (hg : Concurring n g g') (noIn : Bool) :
    Past n (g.declaration noIn) (g'.declaration noIn) := by
  refine (past_declaredName _).past fun name => (blind_declare _ _).onward.bind fun _ => ?_
  refine blind_freshId.onward.bind fun id => concurs_ask fun s hs => ?_
  refine .ite (fun _ => ?_) (onward_pure _ s hs)
  refine (onward_advance.bind fun _ => (hg.assignment noIn).past fun value => ?_) s hs
  exact onward_pure _

theorem atToken_declarations {Q : Tree → Prop} (hg : Concurring n g g') (noIn : Bool) :
    AtToken (n + 1) Q (g.declarations noIn) (g'.declarations noIn) := by
  refine atToken_advance.behind fun opening => ?_
  refine (onward_itemsBetweenCommas hg (past_declaration hg noIn)).bind fun names => ?_
  exact (blind_makeNode _ _).onward

theorem past_condition (hg : Concurring n g g') (keyword : Tag) :
    Past (n + 1) (g.condition keyword) (g'.condition keyword) := by
  have hclose : ∀ test : Tree,
      Onward n (expect .rightParen .parenAfterCondition >>= fun _ => pure test)
        (expect .rightParen .parenAfterCondition >>= fun _ => pure test) :=
    fun _ => (past_expect (by decide)).past fun _ => onward_pure _
  refine (past_expect (by decide)).behind fun _ => (hg.expression false).past fun test => ?_
  exact .ite ((onward_warn _ _).bind fun _ => hclose test) (hclose test)

theorem past_ifStatement (hg : Concurring n g g') :
    Past (n + 1) g.ifStatement g'.ifStatement := by
  refine onward_advance.bind fun opening => (past_condition hg _).behind fun test => ?_
  refine (hg.statement false).past fun yes => (onward_accept _).bind fun _ => .ite ?_ ?_
  · exact (hg.statement false).past fun no => (blind_makeNode _ _).onward
  · exact (blind_makeNode _ _).onward

theorem past_whileStatement (hg : Concurring n g g') (pending : List NodeId) :
    Past (n + 1) (g.whileStatement pending) (g'.whileStatement pending) := by
  refine onward_advance.bind fun opening => blind_freshId.onward.bind fun id => ?_
  refine (past_condition hg _).behind fun test => ?_
  refine (onward_withTarget (hg.statement false).onward).bind fun body => ?_
  exact (blind_withJumps _).onward

theorem atToken_doStatement {Q : Tree → Prop} (hg : Concurring n g g') (pending : List NodeId) :
    AtToken (n + 1) Q (g.doStatement pending) (g'.doStatement pending) := by
  refine atToken_advance.behind fun opening => blind_freshId.onward.bind fun id => ?_
  refine (onward_withTarget (hg.statement false).onward).bind fun body => ?_
  refine (past_expect (by decide)).past fun _ => ?_
  refine ((past_condition hg _).lower (Nat.le_succ n)).past fun test => ?_
  exact (onward_accept _).bind fun _ => (blind_withJumps _).onward

theorem onward_headerPart {part part' : Reading Tree} (before : Tag) (h : Onward n part part') :
    Onward n (headerPart before part) (headerPart before part') :=
  concurs_ask fun s hs => .ite (fun _ => (blind_makeNode _ _).onward s hs) (h s hs)

theorem onward_forStart (hg : Concurring n g g') : Onward n g.forStart g'.forStart :=
  onward_headerPart _ (concurs_ifCheck (by decide)
    ((atToken_declarations hg true).lower (Nat.le_succ n)) (hg.expression true).onward)

theorem onward_forHeader (hg : Concurring n g g') (first : Tree) :
    Onward n (g.forHeader first) (g'.forHeader first) := by
  refine concurs_ifCheck (by decide) (Concurs.atToken (.ite ?_ (concurs_failAt _ _))) ?_
  · refine onward_advance.bind fun _ => (hg.expression false).past fun object => ?_
    exact onward_pure _
  · have hpart := fun before => onward_headerPart before (hg.expression false).onward
    refine (past_expect (by decide)).past fun _ => (hpart _).bind fun test => ?_
    refine (past_expect (by decide)).past fun _ => (hpart _).bind fun update => ?_
    exact onward_pure _

theorem past_forStatement (hg : Concurring n g g') (pending : List NodeId) :
    Past (n + 1) (g.forStatement pending) (g'.forStatement pending) := by
  refine onward_advance.bind fun opening => (past_expect (by decide)).behind fun _ => ?_
  refine (onward_forStart hg).bind fun first => (onward_forHeader hg first).bind fun header => ?_
  refine blind_freshId.onward.bind fun id => (past_expect (by decide)).past fun _ => ?_
  refine (onward_withTarget (hg.statement false).onward).bind fun body => ?_
  exact (blind_withJumps _).onward

theorem onward_jumpLabel : Onward n jumpLabel jumpLabel :=
  concurs_ask fun s hs => .ite
    (fun _ => (onward_advance.bind fun _ => onward_pure _) s hs) (onward_pure _ s hs)

theorem atToken_jumpStatement {Q : Tree → Prop} : AtToken n Q jumpStatement jumpStatement := by
  refine atToken_advance.past fun opening => onward_jumpLabel.bind fun label? => ?_
  refine (blind_destination _ _ _).onward.bind fun target => blind_freshId.onward.bind fun id => ?_
  refine (blind_labelNode _ _).onward.bind fun name => (blind_noteJump _).onward.bind fun _ => ?_
  exact onward_endStatement.bind fun _ => onward_pure _

theorem atToken_returnStatement {Q : Tree → Prop} (hg : Concurring n g g') :
    AtToken (n + 1) Q g.returnStatement g'.returnStatement := by
  have hclose : ∀ (line : Nat) (value : List Tree), Onward n
      (endStatement >>= fun _ => makeNode (.leaf .kwReturn line) value)
      (endStatement >>= fun _ => makeNode (.leaf .kwReturn line) value) :=
    fun _ _ => onward_endStatement.bind fun _ => (blind_makeNode _ _).onward
  refine atToken_ask fun s hs hne => .ite (fun _ => concurs_fail _ s hs) ?_
  refine atToken_advance.behind (fun opening => concurs_ask fun t ht => ?_) s hs hne
  refine .ite (fun _ => hclose _ _ t ht) ?_
  exact (hg.expression false).past (fun value => hclose _ _) t ht

theorem past_withStatement (hg : Concurring n g g') :
    Past (n + 1) g.withStatement g'.withStatement := by
  refine onward_advance.bind fun opening => (past_expect (by decide)).behind fun _ => ?_
  refine (hg.expression false).past fun object => (past_expect (by decide)).past fun _ => ?_
  refine blind_needActivation.onward.bind fun _ => (hg.statement false).past fun body => ?_
  exact (blind_makeNode _ _).onward

/-! ## Switch -/

theorem past_clauseHead (hg : Concurring n g g') (hasDefault : Bool) :
    Past (n + 1) (g.clauseHead hasDefault) (g'.clauseHead hasDefault) := by
  refine concurs_ask fun s hs => ?_
  dsimp only
  split
  · next h =>
    refine atToken_advance.behind (fun _ => (hg.expression false).past fun test => ?_) s hs
      (by simp [h])
    exact (past_expect (by decide)).past fun _ => onward_pure _
  · next h =>
    refine .ite (fun _ => concurs_fail _ s hs) ?_
    refine atToken_advance.past (fun _ => ?_) s hs (by simp [h])
    exact (past_expect (by decide)).past fun _ => onward_pure _
  · exact concurs_fail _ s hs
  · exact concurs_unexpected s hs

theorem concurs_clauseTurn (hg : Concurring n g g') (clauses : List Tree) :
    Concurs (n + 1) Turn.IsAgain (g.clauseTurn clauses) (g'.clauseTurn clauses) := by
  refine concurs_ifCheck (by decide) (concurs_pure id).atToken ?_
  refine onward_takeComments.bind fun comments => (past_clauseHead hg _).behind fun head => ?_
  refine blind_freshId.onward.bind fun id => ?_
  exact (onward_itemsUntil hg _ (hg.statement false) _).bind fun statements => onward_pure _

theorem onward_clauses (hg : Concurring n g g') : Onward n g.clauses g'.clauses :=
  onward_repeatTurns hg (fun clauses => (concurs_clauseTurn hg clauses).lower (Nat.le_succ n)) []

theorem past_switchStatement (hg : Concurring n g g') :
    Past (n + 1) g.switchStatement g'.switchStatement := by
  refine onward_advance.bind fun opening => blind_freshId.onward.bind fun id => ?_
  refine (past_expect (by decide)).behind fun _ => (hg.expression false).past fun value => ?_
  refine (past_expect (by decide)).past fun _ => (past_expect (by decide)).past fun _ => ?_
  refine (onward_withTarget (onward_clauses hg)).bind fun clauses => ?_
  refine onward_takeComments.bind fun comments => (past_expect (by decide)).past fun _ => ?_
  exact (blind_withJumps _).onward

/-! ## Exceptions -/

theorem atToken_throwStatement {Q : Tree → Prop} (hg : Concurring n g g') :
    AtToken (n + 1) Q g.throwStatement g'.throwStatement := by
  refine atToken_advance.behind fun opening => concurs_ask fun s hs => ?_
  refine .ite (fun _ => concurs_fail _ s hs) ?_
  refine (hg.expression false).past (fun value => onward_endStatement.bind fun _ => ?_) s hs
  exact (blind_makeNode _ _).onward

theorem onward_catchGuard (hg : Concurring n g g') : Onward n g.catchGuard g'.catchGuard := by
  refine concurs_ifCheck (by decide) (Concurs.atToken (concurs_ask fun s hs => ?_)) (onward_pure _)
  refine .ite (fun _ => ?_) (concurs_fail _ s hs)
  refine (onward_advance.bind fun _ => (hg.expression false).past fun guard => ?_) s hs
  exact onward_pure _

theorem past_catchClause (hg : Concurring n g g') :
    Past (n + 1) g.catchClause g'.catchClause := by
  refine onward_advance.bind fun opening => (past_expect (by decide)).behind fun _ => ?_
  refine (past_declaredName _).past fun name => (blind_makeNode _ _).onward.bind fun name => ?_
  refine (onward_catchGuard hg).bind fun guard => (past_expect (by decide)).past fun _ => ?_
  exact ((past_block hg _).lower (Nat.le_succ n)).past fun handler => (blind_makeNode _ _).onward

theorem onward_finallyPart (hg : Concurring n g g') : Onward n g.finallyPart g'.finallyPart := by
  refine concurs_ifCheck (by decide) (Concurs.atToken ?_) (onward_pure _)
  refine onward_advance.bind fun _ => ((past_block hg _).lower (Nat.le_succ n)).past fun body => ?_
  exact (blind_makeNode _ _).onward.bind fun _ => onward_pure _

theorem past_tryStatement (hg : Concurring n g g') :
    Past (n + 1) g.tryStatement g'.tryStatement := by
  have hcatch : Past n g.catchClause g'.catchClause :=
    (past_catchClause hg).lower (Nat.le_succ n)
  refine onward_advance.bind fun opening => (past_block hg _).behind fun body => ?_
  refine (onward_itemsUntil hg _ hcatch []).bind fun catches => ?_
  refine (onward_finallyPart hg).bind fun finally? => .ite (concurs_fail _) ?_
  exact (blind_makeNode _ _).onward

/-! ## Expressions and labels -/

theorem onward_labelledStatement (hg : Concurring n g g') (name : String) (line : Nat)
    (pending : List NodeId) :
    Onward n (g.labelledStatement name line pending) (g'.labelledStatement name line pending) := by
  refine concurs_ask fun s hs => .ite (fun _ => concurs_failAt _ _ s hs) ?_
  refine (onward_advance.bind fun _ => blind_freshId.onward.bind fun id => ?_) s hs
  refine (blind_makeNode _ _).onward.bind fun nameNode => ?_
  exact concurs_within
    (fun s => { s with labels := ⟨name, id, none⟩ :: s.labels, pendingLabels := pending ++ [id] })
    (fun s t => { t with labels := s.labels }) (hg.statement false).onward
    (fun _ => (blind_withJumps _).onward) (fun _ => rfl) fun _ _ => rfl

theorem past_simpleStatement (hg : Concurring n g g') (pending : List NodeId) :
    Past (n + 1) (g.simpleStatement pending) (g'.simpleStatement pending) := by
  refine concurs_ask fun s hs => .ite (fun _ => concurs_fail _ s hs) ?_
  refine concurs_ask (fun u hu => ?_) s hs
  refine (past_expressionOf hg false).behind (fun value => ?_) u hu
  have hlabel := onward_labelledStatement hg s.current.shown s.current.line pending
  have hend : Onward n
      (endStatement >>= fun _ => makeNode (.leaf .exprStatement s.current.line) [value])
      (endStatement >>= fun _ => makeNode (.leaf .exprStatement s.current.line) [value]) :=
    onward_endStatement.bind fun _ => (blind_makeNode _ _).onward
  refine (onward_check _).bind fun _ => .ite (.ite hlabel ?_) (.ite hend ?_)
  · exact (blind_modifyScope _).onward.bind fun _ => hlabel
  · exact (onward_warn _ _).bind fun _ => hend

theorem past_bareStatement (hg : Concurring n g g') (top : Bool) (pending : List NodeId) :
    Past (n + 1) (g.bareStatement top pending) (g'.bareStatement top pending) := by
  refine concurs_ask fun s hs => ?_
  dsimp only
  split
  · exact past_functionOf hg _ s hs
  · exact past_block hg _ s hs
  · next h =>
    refine (atToken_declarations hg false).past (fun vars => ?_) s hs (by simp [h])
    exact onward_endStatement.bind fun _ => onward_pure _
  · next h => exact atToken_leaf _ s hs (by simp [h])
  · exact past_ifStatement hg s hs
  · exact past_whileStatement hg pending s hs
  · next h => exact atToken_doStatement hg pending s hs (by simp [h])
  · exact past_forStatement hg pending s hs
  · next h => exact atToken_jumpStatement s hs (by simp [h])
  · next h => exact atToken_jumpStatement s hs (by simp [h])
  · next h => exact atToken_returnStatement hg s hs (by simp [h])
  · exact past_withStatement hg s hs
  · exact past_switchStatement hg s hs
  · next h => exact atToken_throwStatement hg s hs (by simp [h])
  · exact past_tryStatement hg s hs
  · exact past_simpleStatement hg pending s hs

theorem past_statementOf (hg : Concurring n g g') (top : Bool) :
    Past (n + 1) (g.statementOf top) (g'.statementOf top) := by
  refine onward_takeComments.bind fun comments => concurs_ask fun s hs => ?_
  have hclear : Onward (n + 1) (modify ({ · with pendingLabels := [] }))
      (modify ({ · with pendingLabels := [] })) := onward_modify fun _ => rfl
  refine (hclear.bind fun _ => (past_bareStatement hg top _).past fun tree => ?_) s hs
  exact onward_pure _

end ScriptPress.Grammar
