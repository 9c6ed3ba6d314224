import ScriptPress.Proofs.Locating.Expression

/-! # The lines of statements

The readers of statements, one for each reader of the grammar.
-/
namespace ScriptPress.Grammar
open Text (IsLine)
variable {source : List Char} {first : Nat} {g : Grammar} (hg : g.Locating source first)
include hg

theorem locates_block (construct : String) :
    Locates source first (Tree.Located source first) (g.block construct) :=
  (locates_expect _ _).bind fun _ hline => locates_blockAfterBrace hg false hline construct

/-! ## Declarations -/

theorem locates_declaration (noIn : Bool) :
    Locates source first (Tree.Located source first) (g.declaration noIn) := by
  refine (locates_declaredName _).bind fun p hline => (locates_declare _ hline).bind fun _ _ => ?_
  refine locates_freshId.bind fun _ _ => locates_ask fun s hs => ?_
  refine Locates.ite (locates_advance.bind fun _ _ => ?_)
    (locates_pure (Tree.located_node.mpr ⟨hline, AllLocated.nil⟩)) s hs
  refine (hg.assignment noIn).bind fun value hvalue => ?_
  exact locates_pure (Tree.located_node.mpr ⟨hline, AllLocated.one hvalue⟩)

theorem locates_declarations (noIn : Bool) :
    Locates source first (Tree.Located source first) (g.declarations noIn) := by
  refine locates_advance.bind fun opening hline => ?_
  exact (locates_itemsBetweenCommas (locates_declaration hg noIn)).bind fun _ h =>
    locates_makeNode hline h

/-! ## Conditions and loops -/

theorem locates_condition (keyword : Tag) :
    Locates source first (Tree.Located source first) (g.condition keyword) := by
  refine (locates_expect _ _).bind fun _ _ => (hg.expression false).bind fun test h => ?_
  have hclose : Locates source first (Tree.Located source first)
      (expect .rightParen .parenAfterCondition >>= fun _ => pure test) :=
    (locates_expect _ _).bind fun _ _ => locates_pure h
  exact Locates.ite ((locates_warn _ h.line).bind fun _ _ => hclose) hclose

theorem locates_ifStatement :
    Locates source first (Tree.Located source first) g.ifStatement := by
  refine locates_advance.bind fun opening hline => ?_
  refine (locates_condition hg _).bind fun test htest => ?_
  refine (hg.statement false).bind fun yes hyes => (locates_accept _).bind fun _ _ => ?_
  have hnode : ∀ no, AllLocated source first no → Locates source first (Tree.Located source first)
      (makeNode (.leaf .kwIf opening.line) (test :: yes :: no)) := fun no hno =>
    locates_makeNode hline (AllLocated.cons htest (.cons hyes hno))
  exact Locates.ite ((hg.statement false).bind fun no hno => hnode [no] (.one hno)) (hnode [] .nil)

theorem locates_whileStatement (pending : List NodeId) :
    Locates source first (Tree.Located source first) (g.whileStatement pending) := by
  refine locates_advance.bind fun opening hline => locates_freshId.bind fun _ _ => ?_
  refine (locates_condition hg _).bind fun test htest => ?_
  refine (locates_withTarget (hg.statement false)).bind fun body hbody => ?_
  exact locates_withJumps (Tree.located_node.mpr ⟨hline, AllLocated.cons htest (.one hbody)⟩)

theorem locates_doStatement (pending : List NodeId) :
    Locates source first (Tree.Located source first) (g.doStatement pending) := by
  refine locates_advance.bind fun opening hline => locates_freshId.bind fun _ _ => ?_
  refine (locates_withTarget (hg.statement false)).bind fun body hbody => ?_
  refine (locates_expect _ _).bind fun _ _ => (locates_condition hg _).bind fun test htest => ?_
  refine (locates_accept _).bind fun _ _ => ?_
  exact locates_withJumps (Tree.located_node.mpr ⟨hline, AllLocated.cons hbody (.one htest)⟩)

omit hg in
theorem locates_headerPart (before : Tag) {part : Reading Tree}
    (h : Locates source first (Tree.Located source first) part) :
    Locates source first (Tree.Located source first) (headerPart before part) :=
  locates_ask fun s hs => (locates_makeNode hs.line AllLocated.nil).ite h s hs

theorem locates_forStart : Locates source first (Tree.Located source first) g.forStart :=
  locates_headerPart _ (locates_ifCheck (locates_declarations hg true) (hg.expression true))

theorem locates_forHeader {head : Tree} (h : head.Located source first) :
    Locates source first (fun p => AllLocated source first p.2) (g.forHeader head) := by
  refine locates_ifCheck (Locates.ite ?_ (locates_failAt _ h.line)) ?_
  · refine locates_advance.bind fun _ _ => (hg.expression false).bind fun object hobject => ?_
    exact locates_pure (AllLocated.cons h (.one hobject))
  · refine (locates_expect _ _).bind fun _ _ => ?_
    refine (locates_headerPart _ (hg.expression false)).bind fun test htest => ?_
    refine (locates_expect _ _).bind fun _ _ => ?_
    refine (locates_headerPart _ (hg.expression false)).bind fun update hupdate => ?_
    exact locates_pure (AllLocated.cons h (.cons htest (.one hupdate)))

theorem locates_forStatement (pending : List NodeId) :
    Locates source first (Tree.Located source first) (g.forStatement pending) := by
  refine locates_advance.bind fun opening hline => (locates_expect _ _).bind fun _ _ => ?_
  refine (locates_forStart hg).bind fun head hhead => ?_
  refine (locates_forHeader hg hhead).bind fun header hheader => locates_freshId.bind fun _ _ => ?_
  refine (locates_expect _ _).bind fun _ _ => ?_
  refine (locates_withTarget (hg.statement false)).bind fun body hbody => ?_
  exact locates_withJumps (Tree.located_node.mpr ⟨hline, hheader.append (.one hbody)⟩)

/-! ## Jumps -/

omit hg in
theorem locates_jumpLabel : Locates source first (fun _ => True) jumpLabel :=
  locates_ask fun s hs => Locates.ite (locates_advance.bind fun _ _ => locates_pure trivial)
    (locates_pure trivial) s hs

omit hg in
theorem locates_labelNode (label? : Option String) {line : Nat} (h : IsLine source first line) :
    Locates source first (AllLocated source first) (labelNode label? line) := by
  cases label? with
  | none => exact locates_pure AllLocated.nil
  | some label =>
    exact (locates_makeNode h AllLocated.nil).bind fun _ ht => locates_pure (AllLocated.one ht)

omit hg in
theorem locates_jumpStatement :
    Locates source first (Tree.Located source first) jumpStatement := by
  refine locates_advance.bind fun opening hline => locates_jumpLabel.bind fun label? _ => ?_
  refine (locates_destination _ label? hline).bind fun target _ => ?_
  refine locates_freshId.bind fun id _ => ?_
  refine (locates_labelNode label? hline).bind fun name hname => ?_
  have hjump : Locates source first (fun _ => True)
      (modify fun s => { s with jumps := s.jumps ++ [(target, id)] }) := locates_modify fun _ h => h
  refine hjump.bind fun _ _ => locates_endStatement.bind fun _ _ => ?_
  exact locates_pure (Tree.located_node.mpr ⟨hline, hname⟩)

theorem locates_returnStatement :
    Locates source first (Tree.Located source first) g.returnStatement := by
  refine locates_ask fun s hs => Locates.ite (locates_fail _) ?_ s hs
  refine locates_advance.bind fun opening hline => ?_
  have hend : ∀ value, AllLocated source first value → Locates source first
      (Tree.Located source first)
      (endStatement >>= fun _ => makeNode (.leaf .kwReturn opening.line) value) := fun _ h =>
    locates_endStatement.bind fun _ _ => locates_makeNode hline h
  refine locates_ask fun t ht => Locates.ite (hend [] .nil) ?_ t ht
  exact (hg.expression false).bind fun value hvalue => hend [value] (.one hvalue)

theorem locates_withStatement :
    Locates source first (Tree.Located source first) g.withStatement := by
  refine locates_advance.bind fun opening hline => (locates_expect _ _).bind fun _ _ => ?_
  refine (hg.expression false).bind fun object hobject => (locates_expect _ _).bind fun _ _ => ?_
  refine (locates_modifyScope _).bind fun _ _ => (hg.statement false).bind fun body hbody => ?_
  exact locates_makeNode hline (AllLocated.cons hobject (.one hbody))

/-! ## Switch -/

theorem locates_clauseHead (hasDefault : Bool) :
    Locates source first (fun p => IsLine source first p.1.line ∧ AllLocated source first p.2)
      (g.clauseHead hasDefault) := by
  refine locates_ask fun s hs => ?_
  dsimp only
  split
  · refine locates_advance.bind (fun _ _ => (hg.expression false).bind fun test htest => ?_) s hs
    exact (locates_expect _ _).bind fun _ _ => locates_pure ⟨hs.line, .one htest⟩
  · refine Locates.ite (locates_fail _) (locates_advance.bind fun _ _ => ?_) s hs
    exact (locates_expect _ _).bind fun _ _ => locates_pure ⟨hs.line, .nil⟩
  · exact locates_fail _ s hs
  · exact locates_unexpected s hs

theorem locates_clauseTurn {clauses : List Tree} (h : AllLocated source first clauses) :
    Locates source first (Turn.Gives (AllLocated source first) (AllLocated source first))
      (g.clauseTurn clauses) := by
  refine locates_ifCheck (locates_pure h) (locates_takeComments.bind fun comments _ => ?_)
  refine (locates_clauseHead hg _).bind fun head hhead => locates_freshId.bind fun id _ => ?_
  refine (locates_itemsUntil (hg.statement false) hhead.2).bind fun statements hstatements => ?_
  have hclause : (Tree.node id head.1 statements).Located source first :=
    Tree.located_node.mpr ⟨hhead.1, hstatements⟩
  exact locates_pure (h.append (.one (located_withComments hclause _ _)))

theorem locates_switchStatement :
    Locates source first (Tree.Located source first) g.switchStatement := by
  have hclauses : Locates source first (AllLocated source first) g.clauses :=
    locates_repeatTurns (fun _ => locates_clauseTurn hg) AllLocated.nil
  refine locates_advance.bind fun opening hline => locates_freshId.bind fun _ _ => ?_
  refine (locates_expect _ _).bind fun _ _ => (hg.expression false).bind fun value hvalue => ?_
  refine (locates_expect _ _).bind fun _ _ => (locates_expect _ _).bind fun _ _ => ?_
  refine (locates_withTarget hclauses).bind fun clauses h => ?_
  refine locates_takeComments.bind fun _ _ => (locates_expect _ _).bind fun _ _ => ?_
  exact locates_withJumps (located_withComments
    (Tree.located_node.mpr ⟨hline, AllLocated.cons hvalue h⟩) _ _)

/-! ## Exceptions -/

theorem locates_throwStatement :
    Locates source first (Tree.Located source first) g.throwStatement := by
  refine locates_advance.bind fun opening hline => locates_ask fun s hs => ?_
  refine Locates.ite (locates_fail _) ((hg.expression false).bind fun value hvalue => ?_) s hs
  exact locates_endStatement.bind fun _ _ => locates_makeNode hline (AllLocated.one hvalue)

theorem locates_catchGuard : Locates source first (AllLocated source first) g.catchGuard := by
  refine locates_ifCheck (locates_ask fun s hs => ?_) (locates_pure AllLocated.nil)
  refine Locates.ite (locates_advance.bind fun _ _ => ?_) (locates_fail _) s hs
  exact (hg.expression false).bind fun guard hguard => locates_pure (AllLocated.one hguard)

theorem locates_catchClause :
    Locates source first (Tree.Located source first) g.catchClause := by
  refine locates_advance.bind fun opening hline => (locates_expect _ _).bind fun _ _ => ?_
  refine (locates_declaredName _).bind fun p hp => ?_
  refine (locates_makeNode hp AllLocated.nil).bind fun name hname => ?_
  refine (locates_catchGuard hg).bind fun guard hguard => (locates_expect _ _).bind fun _ _ => ?_
  refine (locates_block hg _).bind fun handler hhandler => ?_
  exact locates_makeNode hline ((AllLocated.cons hname hguard).append (.one hhandler))

theorem locates_finallyPart : Locates source first (AllLocated source first) g.finallyPart := by
  refine locates_ifCheck (locates_advance.bind fun t hline => ?_) (locates_pure AllLocated.nil)
  refine (locates_block hg _).bind fun body hbody => ?_
  exact (locates_makeNode hline (AllLocated.one hbody)).bind fun _ ht =>
    locates_pure (AllLocated.one ht)

theorem locates_tryStatement :
    Locates source first (Tree.Located source first) g.tryStatement := by
  refine locates_advance.bind fun opening hline => (locates_block hg _).bind fun body hbody => ?_
  have hcatches : Locates source first (AllLocated source first)
      (g.itemsUntil (·.tag != .kwCatch) g.catchClause []) :=
    locates_itemsUntil (locates_catchClause hg) AllLocated.nil
  refine hcatches.bind fun catches hcatches => ?_
  refine (locates_finallyPart hg).bind fun finally? hfinally => Locates.ite (locates_fail _) ?_
  exact locates_makeNode hline (AllLocated.append (.cons hbody hcatches) hfinally)

/-! ## Expressions and labels -/

theorem locates_labelledStatement (name : String) {line : Nat} (hline : IsLine source first line)
    (pending : List NodeId) :
    Locates source first (Tree.Located source first) (g.labelledStatement name line pending) := by
  refine locates_ask fun s hs => Locates.ite (locates_failAt _ hline) ?_ s hs
  refine locates_advance.bind fun _ _ => locates_freshId.bind fun id _ => ?_
  refine (locates_makeNode hline AllLocated.nil).bind fun nameNode hname => ?_
  exact locates_within
    (fun s => { s with labels := ⟨name, id, none⟩ :: s.labels, pendingLabels := pending ++ [id] })
    (fun s t => { t with labels := s.labels }) (hg.statement false)
    (fun _ hbody => locates_withJumps
      (Tree.located_node.mpr ⟨hline, AllLocated.cons hname (.one hbody)⟩))
    (fun _ h => h) fun _ _ h => h

theorem locates_simpleStatement (pending : List NodeId) :
    Locates source first (Tree.Located source first) (g.simpleStatement pending) := by
  refine locates_ask fun s hs => Locates.ite (locates_fail _) ?_ s hs
  refine locates_ask fun u hu => ?_
  refine (locates_expressionOf hg false).bind (fun value hvalue => ?_) u hu
  have hlabel := locates_labelledStatement hg s.current.shown hs.line pending
  have hend : Locates source first (Tree.Located source first)
      (endStatement >>= fun _ => makeNode (.leaf .exprStatement s.current.line) [value]) :=
    locates_endStatement.bind fun _ _ => locates_makeNode hs.line (AllLocated.one hvalue)
  refine (locates_check _).bind fun _ _ => Locates.ite (Locates.ite hlabel ?_) (Locates.ite hend ?_)
  · exact (locates_modifyScope _).bind fun _ _ => hlabel
  · exact (locates_warn _ hs.line).bind fun _ _ => hend

theorem locates_bareStatement (top : Bool) (pending : List NodeId) :
    Locates source first (Tree.Located source first) (g.bareStatement top pending) := by
  refine locates_ask fun s hs => ?_
  dsimp only
  split
  · exact locates_functionOf hg _ s hs
  · exact locates_block hg _ s hs
  · refine (locates_declarations hg false).bind (fun _ h => ?_) s hs
    exact locates_endStatement.bind fun _ _ => locates_pure h
  · exact locates_advance.bind (fun _ _ => locates_makeNode hs.line AllLocated.nil) s hs
  · exact locates_ifStatement hg s hs
  · exact locates_whileStatement hg pending s hs
  · exact locates_doStatement hg pending s hs
  · exact locates_forStatement hg pending s hs
  · exact locates_jumpStatement s hs
  · exact locates_jumpStatement s hs
  · exact locates_returnStatement hg s hs
  · exact locates_withStatement hg s hs
  · exact locates_switchStatement hg s hs
  · exact locates_throwStatement hg s hs
  · exact locates_tryStatement hg s hs
  · exact locates_simpleStatement hg pending s hs

theorem locates_statementOf (top : Bool) :
    Locates source first (Tree.Located source first) (g.statementOf top) := by
  refine locates_takeComments.bind fun comments _ => locates_ask fun s hs => ?_
  have hpending : Locates source first (fun _ => True)
      (modify ({ · with pendingLabels := [] })) := locates_modify fun _ h => h
  refine (hpending.bind fun _ _ => (locates_bareStatement hg top _).bind fun _ h => ?_) s hs
  exact locates_pure (located_withComments h _ _)

end ScriptPress.Grammar
