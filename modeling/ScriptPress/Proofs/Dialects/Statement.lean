import ScriptPress.Proofs.Dialects.Expression

/-! # Statements in later dialects

The readers of statements, one for each reader of the grammar.
-/
namespace ScriptPress.Grammar
variable {w : Dialect} {g : Grammar} (hg : g.Lasts w)
include hg

theorem rises_block (construct : String) : Rises w (g.block construct) :=
  (rises_expect _ _).bind fun _ => rises_blockAfterBrace hg false _ construct

/-! ## Declarations -/

theorem rises_declaration (noIn : Bool) : Rises w (g.declaration noIn) := by
  refine (rises_declaredName _).bind fun p => (rises_declare _ _).bind fun _ => ?_
  refine rises_freshId.bind fun _ => rises_ask (fun s => ?_) fun _ => rfl
  refine Rises.ite (rises_advance.bind fun _ => ?_) (rises_pure _) s
  exact (hg.assignment noIn).bind fun _ => rises_pure _

theorem rises_declarations (noIn : Bool) : Rises w (g.declarations noIn) := by
  refine rises_advance.bind fun _ => ?_
  exact (rises_itemsBetweenCommas (rises_declaration hg noIn)).bind fun _ => rises_makeNode _ _

/-! ## Conditions and loops -/

theorem rises_condition (keyword : Tag) : Rises w (g.condition keyword) := by
  have hclose : ∀ test : Tree,
      Rises w (expect .rightParen .parenAfterCondition >>= fun _ => pure test) :=
    fun _ => (rises_expect _ _).bind fun _ => rises_pure _
  refine (rises_expect _ _).bind fun _ => (hg.expression false).bind fun test => ?_
  exact Rises.ite ((rises_warn _ _).bind fun _ => hclose test) (hclose test)

theorem rises_ifStatement : Rises w g.ifStatement := by
  refine rises_advance.bind fun _ => (rises_condition hg _).bind fun _ => ?_
  refine (hg.statement false).bind fun _ => (rises_accept _).bind fun _ => Rises.ite ?_ ?_
  · exact (hg.statement false).bind fun _ => rises_makeNode _ _
  · exact rises_makeNode _ _

theorem rises_whileStatement (pending : List NodeId) : Rises w (g.whileStatement pending) := by
  refine rises_advance.bind fun _ => rises_freshId.bind fun _ => ?_
  refine (rises_condition hg _).bind fun _ => ?_
  exact (rises_withTarget (hg.statement false)).bind fun _ => rises_withJumps _

theorem rises_doStatement (pending : List NodeId) : Rises w (g.doStatement pending) := by
  refine rises_advance.bind fun _ => rises_freshId.bind fun _ => ?_
  refine (rises_withTarget (hg.statement false)).bind fun _ => (rises_expect _ _).bind fun _ => ?_
  refine (rises_condition hg _).bind fun _ => (rises_accept _).bind fun _ => ?_
  exact rises_withJumps _

omit hg in
theorem rises_headerPart (before : Tag) {part : Reading Tree} (h : Rises w part) :
    Rises w (headerPart before part) :=
  rises_ask (fun s => (rises_makeNode _ _).ite h s) fun _ => rfl

theorem rises_forStart : Rises w g.forStart :=
  rises_headerPart _ (rises_ifCheck (rises_declarations hg true) (hg.expression true))

theorem rises_forHeader (first : Tree) : Rises w (g.forHeader first) := by
  refine rises_ifCheck (Rises.ite ?_ (rises_failAt _ _)) ?_
  · exact rises_advance.bind fun _ => (hg.expression false).bind fun _ => rises_pure _
  · refine (rises_expect _ _).bind fun _ => ?_
    refine (rises_headerPart _ (hg.expression false)).bind fun _ => ?_
    refine (rises_expect _ _).bind fun _ => ?_
    exact (rises_headerPart _ (hg.expression false)).bind fun _ => rises_pure _

theorem rises_forStatement (pending : List NodeId) : Rises w (g.forStatement pending) := by
  refine rises_advance.bind fun _ => (rises_expect _ _).bind fun _ => ?_
  refine (rises_forStart hg).bind fun first => (rises_forHeader hg first).bind fun _ => ?_
  refine rises_freshId.bind fun _ => (rises_expect _ _).bind fun _ => ?_
  exact (rises_withTarget (hg.statement false)).bind fun _ => rises_withJumps _

/-! ## Jumps -/

omit hg in
theorem rises_jumpLabel : Rises w jumpLabel :=
  rises_ask (fun s => (rises_advance.bind fun _ => rises_pure _).ite (rises_pure _) s) fun _ => rfl

omit hg in
theorem rises_labelNode (label? : Option String) (line : Nat) :
    Rises w (labelNode label? line) := by
  cases label? with
  | none => exact rises_pure _
  | some label => exact (rises_makeNode _ _).bind fun _ => rises_pure _

omit hg in
theorem rises_jumpStatement : Rises w jumpStatement := by
  refine rises_advance.bind fun _ => rises_jumpLabel.bind fun label? => ?_
  refine (rises_destination _ label? _).bind fun _ => rises_freshId.bind fun _ => ?_
  refine (rises_labelNode label? _).bind fun _ => ?_
  refine Rises.bind (rises_modify (fun _ h => h) fun _ => rfl) fun _ => ?_
  exact rises_endStatement.bind fun _ => rises_pure _

theorem rises_returnStatement : Rises w g.returnStatement := by
  refine rises_ask (fun s => Rises.ite (rises_fail _) ?_ s) fun _ => rfl
  refine rises_advance.bind fun _ => rises_ask (fun t => Rises.ite ?_ ?_ t) fun _ => rfl
  · exact rises_endStatement.bind fun _ => rises_makeNode _ _
  · refine (hg.expression false).bind fun _ => ?_
    exact rises_endStatement.bind fun _ => rises_makeNode _ _

theorem rises_withStatement : Rises w g.withStatement := by
  refine rises_advance.bind fun _ => (rises_expect _ _).bind fun _ => ?_
  refine (hg.expression false).bind fun _ => (rises_expect _ _).bind fun _ => ?_
  refine (rises_modifyScope _).bind fun _ => (hg.statement false).bind fun _ => ?_
  exact rises_makeNode _ _

/-! ## Switch -/

theorem rises_clauseHead (hasDefault : Bool) : Rises w (g.clauseHead hasDefault) := by
  refine rises_ask (fun s => ?_) fun _ => rfl
  dsimp only
  split
  · refine Rises.bind rises_advance (fun _ => (hg.expression false).bind fun _ => ?_) s
    exact (rises_expect _ _).bind fun _ => rises_pure _
  · refine Rises.ite (rises_fail _) (rises_advance.bind fun _ => ?_) s
    exact (rises_expect _ _).bind fun _ => rises_pure _
  · exact rises_fail _ s
  · exact rises_unexpected s

theorem rises_clauseTurn (clauses : List Tree) : Rises w (g.clauseTurn clauses) := by
  refine rises_ifCheck (rises_pure _) (rises_takeComments.bind fun _ => ?_)
  refine (rises_clauseHead hg _).bind fun _ => rises_freshId.bind fun _ => ?_
  exact (rises_itemsUntil (hg.statement false) _).bind fun _ => rises_pure _

theorem rises_switchStatement : Rises w g.switchStatement := by
  have hclauses : Rises w g.clauses := rises_repeatTurns (rises_clauseTurn hg) []
  refine rises_advance.bind fun _ => rises_freshId.bind fun _ => ?_
  refine (rises_expect _ _).bind fun _ => (hg.expression false).bind fun _ => ?_
  refine (rises_expect _ _).bind fun _ => (rises_expect _ _).bind fun _ => ?_
  refine (rises_withTarget hclauses).bind fun _ => rises_takeComments.bind fun _ => ?_
  exact (rises_expect _ _).bind fun _ => rises_withJumps _

/-! ## Exceptions -/

theorem rises_throwStatement : Rises w g.throwStatement := by
  refine rises_advance.bind fun _ => rises_ask (fun s => ?_) fun _ => rfl
  refine Rises.ite (rises_fail _) ((hg.expression false).bind fun _ => ?_) s
  exact rises_endStatement.bind fun _ => rises_makeNode _ _

/-- A guard is read in a later dialect too: that a dialect has guards, the later ones have. -/
theorem rises_catchGuard : Rises w g.catchGuard := by
  have hguard : Rises w (advance >>= fun _ => g.expression false >>= fun guard => pure [guard]) :=
    rises_advance.bind fun _ => (hg.expression false).bind fun _ => rises_pure _
  refine rises_ifCheck ?_ (rises_pure _)
  intro s a t hrun ht
  cases hv : s.lexer.dialect.hasCatchGuards with
  | false =>
    rw [bind_ok (rfl : (get : Reading State) s = .ok (s, s)), hv] at hrun
    cases hrun
  | true =>
    rw [bind_ok (rfl : (get : Reading State) s = .ok (s, s)), hv] at hrun
    obtain ⟨hs, hrun'⟩ := hguard s a t hrun ht
    have hw : (s.raised w).lexer.dialect.hasCatchGuards = true := Dialect.atLeast_trans hs.1 hv
    refine ⟨hs, ?_⟩
    rw [bind_ok (rfl : (get : Reading State) (s.raised w) = .ok (s.raised w, s.raised w)), hw]
    exact hrun'

theorem rises_catchClause : Rises w g.catchClause := by
  refine rises_advance.bind fun _ => (rises_expect _ _).bind fun _ => ?_
  refine (rises_declaredName _).bind fun _ => (rises_makeNode _ _).bind fun _ => ?_
  refine (rises_catchGuard hg).bind fun _ => (rises_expect _ _).bind fun _ => ?_
  exact (rises_block hg _).bind fun _ => rises_makeNode _ _

theorem rises_finallyPart : Rises w g.finallyPart := by
  refine rises_ifCheck (rises_advance.bind fun _ => ?_) (rises_pure _)
  exact (rises_block hg _).bind fun _ => (rises_makeNode _ _).bind fun _ => rises_pure _

theorem rises_tryStatement : Rises w g.tryStatement := by
  refine rises_advance.bind fun _ => (rises_block hg _).bind fun _ => ?_
  refine (rises_itemsUntil (rises_catchClause hg) []).bind fun _ => ?_
  refine (rises_finallyPart hg).bind fun _ => Rises.ite (rises_fail _) ?_
  exact rises_makeNode _ _

/-! ## Expressions and labels -/

theorem rises_labelledStatement (name : String) (line : Nat) (pending : List NodeId) :
    Rises w (g.labelledStatement name line pending) := by
  refine rises_ask (fun s => Rises.ite (rises_failAt _ _) ?_ s) fun _ => rfl
  refine rises_advance.bind fun _ => rises_freshId.bind fun id => ?_
  refine (rises_makeNode _ _).bind fun _ => ?_
  exact rises_within
    (fun s => { s with labels := ⟨name, id, none⟩ :: s.labels, pendingLabels := pending ++ [id] })
    (fun s t => { t with labels := s.labels }) (hg.statement false)
    (fun _ => rises_withJumps _) (fun _ => rfl) (fun _ _ => rfl) fun _ _ => ⟨fun h => h, fun h => h⟩

theorem rises_simpleStatement (pending : List NodeId) :
    Rises w (g.simpleStatement pending) := by
  refine rises_ask (fun s => Rises.ite (rises_fail _) ?_ s) fun _ => rfl
  refine rises_ask (fun u => ?_) fun _ => rfl
  refine Rises.bind (rises_expressionOf hg false) (fun value => ?_) u
  have hlabel := rises_labelledStatement hg s.current.shown s.current.line pending
  have hend : Rises w
      (endStatement >>= fun _ => makeNode (.leaf .exprStatement s.current.line) [value]) :=
    rises_endStatement.bind fun _ => rises_makeNode _ _
  refine (rises_check _).bind fun _ => Rises.ite (Rises.ite hlabel ?_) (Rises.ite hend ?_)
  · exact (rises_modifyScope _).bind fun _ => hlabel
  · exact (rises_warn _ _).bind fun _ => hend

theorem rises_bareStatement (top : Bool) (pending : List NodeId) :
    Rises w (g.bareStatement top pending) := by
  refine rises_ask (fun s => ?_) fun _ => rfl
  dsimp only
  split
  · exact rises_functionOf hg _ s
  · exact rises_block hg _ s
  · refine Rises.bind (rises_declarations hg false) (fun _ => ?_) s
    exact rises_endStatement.bind fun _ => rises_pure _
  · exact rises_leaf _ s
  · exact rises_ifStatement hg s
  · exact rises_whileStatement hg pending s
  · exact rises_doStatement hg pending s
  · exact rises_forStatement hg pending s
  · exact rises_jumpStatement s
  · exact rises_jumpStatement s
  · exact rises_returnStatement hg s
  · exact rises_withStatement hg s
  · exact rises_switchStatement hg s
  · exact rises_throwStatement hg s
  · exact rises_tryStatement hg s
  · exact rises_simpleStatement hg pending s

theorem rises_statementOf (top : Bool) : Rises w (g.statementOf top) := by
  refine rises_takeComments.bind fun _ => rises_ask (fun s => ?_) fun _ => rfl
  have hpending : Rises w (modify ({ · with pendingLabels := [] })) :=
    rises_modify (fun _ h => h) fun _ => rfl
  exact (hpending.bind fun _ => (rises_bareStatement hg top _).bind fun _ => rises_pure _) s

end ScriptPress.Grammar
