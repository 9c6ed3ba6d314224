import ScriptPress.Proofs.Likeness.Expression

/-! # Statements of like texts

The readers of statements, one for each reader of the grammar.
-/
namespace ScriptPress.Grammar
variable {all : List Token} {b : Bool} {g : Grammar} {t t' : Tree} {ts ts' : List Tree}

theorem children_of_outline (h : t'.outline = t.outline) :
    t'.children.map Tree.outline = t.children.map Tree.outline := by
  obtain ⟨id, data, children⟩ := t
  obtain ⟨id', data', children'⟩ := t'
  rw [Tree.outline_node, Tree.outline_node] at h
  exact (Outline.node.inj h).2

theorem isForInTarget_of_outline (h : t'.outline = t.outline) :
    isForInTarget t' = isForInTarget t := by
  have hlength : t'.children.length = t.children.length := by
    simpa using congrArg List.length (children_of_outline h)
  rw [isForInTarget, isForInTarget, tag_of_outline h, hlength]

theorem any_of_outlines (tag : Tag) (h : ts'.map Tree.outline = ts.map Tree.outline) :
    ts'.any (·.tag == tag) = ts.any (·.tag == tag) := by
  have hany : ∀ us : List Tree,
      us.any (·.tag == tag) = (us.map Tree.outline).any (·.core.tag == tag) := by
    intro us
    rw [List.any_map]
    congr 1
    funext u
    exact congrArg (·.tag == tag) (outline_core u).symm
  rw [hany, hany, h]

variable (hg : g.Parallel all)
include hg

theorem mirrors_block (construct : String) :
    Mirrors all b (g.block construct) (g.block construct) Tree.outline true :=
  (mirrors_expect _ _).bind fun _ _ _ => mirrors_blockAfterBrace hg false construct

/-! ## Declarations -/

theorem mirrors_declaration (noIn : Bool) :
    Mirrors all b (g.declaration noIn) (g.declaration noIn) Tree.outline true := by
  refine (mirrors_declaredName _).bind fun p p' hname => ?_
  obtain ⟨name, line⟩ := p
  obtain ⟨name', line'⟩ := p'
  obtain rfl : name' = name := hname
  refine (mirrors_declare _).next fun _ => mirrors_freshId.next fun _ => ?_
  refine mirrors_get fun s s' hb hlike => ?_
  dsimp only
  rw [Token.tag_of_sym hlike.sym, Token.datum_of_sym hlike.sym]
  refine (Mirrors.ite rfl (fun _ => mirrors_advance.bind fun _ _ _ => ?_) fun _ => ?_) s s' hb hlike
  · refine (hg.assignment noIn true).bind fun _ _ h => mirrors_pure ?_
    simp [h, (Node.plain_identifier _ _).core]
  · exact mirrors_pure (by simp [(Node.plain_identifier _ _).core])

theorem mirrors_declarations (noIn : Bool) :
    Mirrors all b (g.declarations noIn) (g.declarations noIn) Tree.outline true := by
  refine mirrors_advance.bind fun _ _ _ => ?_
  exact (mirrors_itemsBetweenCommas (mirrors_declaration hg noIn)).bind fun _ _ h =>
    mirrors_makeNode (Node.plain_leaf _ _) (Node.plain_leaf _ _) h

/-! ## Conditions and loops -/

theorem mirrors_condition (keyword : Tag) :
    Mirrors all b (g.condition keyword) (g.condition keyword) Tree.outline true := by
  refine (mirrors_expect _ _).bind fun _ _ _ => ?_
  refine (hg.expression false true).bind fun test test' h => ?_
  have hclose : Mirrors all true (expect .rightParen .parenAfterCondition >>= fun _ => pure test)
      (expect .rightParen .parenAfterCondition >>= fun _ => pure test') Tree.outline true :=
    (mirrors_expect _ _).bind fun _ _ _ => mirrors_pure h
  rw [tag_of_outline h, datum_of_outline h]
  exact .ite rfl (fun _ => mirrors_warn.next fun _ => hclose) fun _ => hclose

theorem mirrors_ifStatement : Mirrors all b g.ifStatement g.ifStatement Tree.outline true := by
  refine mirrors_advance.bind fun _ _ _ => (mirrors_condition hg _).bind fun _ _ htest => ?_
  refine (hg.statement false true).bind fun _ _ hyes => (mirrors_accept _).next fun _ => ?_
  refine .ite rfl (fun _ => (hg.statement false true).bind fun _ _ hno => ?_) fun _ => ?_
  · exact mirrors_makeNode (Node.plain_leaf _ _) (Node.plain_leaf _ _) (by simp [htest, hyes, hno])
  · exact mirrors_makeNode (Node.plain_leaf _ _) (Node.plain_leaf _ _) (by simp [htest, hyes])

theorem mirrors_whileStatement (pending : List NodeId) :
    Mirrors all b (g.whileStatement pending) (g.whileStatement pending) Tree.outline true := by
  refine mirrors_advance.bind fun _ _ _ => mirrors_freshId.next fun _ => ?_
  refine (mirrors_condition hg _).bind fun _ _ htest => ?_
  refine (mirrors_withTarget (hg.statement false true)).bind fun _ _ hbody => ?_
  exact mirrors_withJumps (by simp [htest, hbody, (Node.plain_leaf _ _).core])

theorem mirrors_doStatement (pending : List NodeId) :
    Mirrors all b (g.doStatement pending) (g.doStatement pending) Tree.outline true := by
  refine mirrors_advance.bind fun _ _ _ => mirrors_freshId.next fun _ => ?_
  refine (mirrors_withTarget (hg.statement false true)).bind fun _ _ hbody => ?_
  refine (mirrors_expect _ _).bind fun _ _ _ => (mirrors_condition hg _).bind fun _ _ htest => ?_
  refine (mirrors_accept _).next fun _ => ?_
  exact mirrors_withJumps (by simp [htest, hbody, (Node.plain_leaf _ _).core])

omit hg in
theorem mirrors_headerPart (before : Tag) {part : Reading Tree}
    (h : Mirrors all true part part Tree.outline true) :
    Mirrors all true (headerPart before part) (headerPart before part) Tree.outline true := by
  refine mirrors_get fun s s' hb hlike => ?_
  dsimp only
  rw [Token.tag_of_sym hlike.sym]
  exact (Mirrors.ite rfl (fun _ => mirrors_makeNode (Node.plain_leaf _ _) (Node.plain_leaf _ _) rfl)
    fun _ => h) s s' hb hlike

theorem mirrors_forStart : Mirrors all true g.forStart g.forStart Tree.outline true :=
  mirrors_headerPart _ (mirrors_ifCheck (mirrors_declarations hg true) (hg.expression true true))

theorem mirrors_forHeader (h : t'.outline = t.outline) :
    Mirrors all true (g.forHeader t) (g.forHeader t') (fun r => (r.1, r.2.map Tree.outline))
      true := by
  rw [forHeader, forHeader, isForInTarget_of_outline h]
  refine mirrors_ifCheck (.ite rfl (fun _ => ?_) fun _ => mirrors_failAt _ _) ?_
  · refine mirrors_advance.bind fun _ _ _ => (hg.expression false true).bind fun _ _ hobject => ?_
    exact mirrors_pure (by simp [h, hobject])
  · refine (mirrors_expect _ _).bind fun _ _ _ => ?_
    refine (mirrors_headerPart _ (hg.expression false true)).bind fun _ _ htest => ?_
    refine (mirrors_expect _ _).bind fun _ _ _ => ?_
    refine (mirrors_headerPart _ (hg.expression false true)).bind fun _ _ hupdate => ?_
    exact mirrors_pure (by simp [h, htest, hupdate])

theorem mirrors_forStatement (pending : List NodeId) :
    Mirrors all b (g.forStatement pending) (g.forStatement pending) Tree.outline true := by
  refine mirrors_advance.bind fun _ _ _ => (mirrors_expect _ _).bind fun _ _ _ => ?_
  refine (mirrors_forStart hg).bind fun _ _ hfirst => (mirrors_forHeader hg hfirst).bind ?_
  rintro ⟨tag, header⟩ ⟨tag', header'⟩ h
  obtain ⟨rfl, hheader⟩ : tag' = tag ∧ header'.map Tree.outline = header.map Tree.outline :=
    Prod.mk.inj h
  refine mirrors_freshId.next fun _ => (mirrors_expect _ _).bind fun _ _ _ => ?_
  refine (mirrors_withTarget (hg.statement false true)).bind fun _ _ hbody => ?_
  exact mirrors_withJumps (by simp [hheader, hbody, (Node.plain_leaf _ _).core])

/-! ## Jumps -/

omit hg in
theorem mirrors_jumpLabel : Mirrors all true jumpLabel jumpLabel id true := by
  refine mirrors_get fun s s' hb hlike => ?_
  refine (Mirrors.ite ((hlike.current hb).same (by simp)) (fun _ => ?_) fun _ => mirrors_pure rfl)
    s s' hb hlike
  exact mirrors_advance.bind fun _ _ h => mirrors_pure (congrArg some (Token.shown_of_sym h))

omit hg in
theorem mirrors_labelNode (label? : Option String) {line line' : Nat} :
    Mirrors all b (labelNode label? line) (labelNode label? line') (List.map Tree.outline) b := by
  cases label? with
  | none => exact mirrors_pure rfl
  | some label =>
    refine (mirrors_makeNode (Node.plain_identifier _ _) (Node.plain_identifier _ _) rfl).bind ?_
    exact fun _ _ h => mirrors_pure (by simp [h])

omit hg in
theorem mirrors_jumpStatement :
    Mirrors all b jumpStatement jumpStatement Tree.outline true := by
  refine mirrors_advance.bind fun opening opening' ho => mirrors_jumpLabel.next fun label? => ?_
  rw [Token.tag_of_sym ho]
  refine (mirrors_destination _ label?).next fun target => mirrors_freshId.next fun id => ?_
  refine (mirrors_labelNode label?).bind fun _ _ hname => ?_
  refine Mirrors.next (mirrors_modify (fun _ _ h => ⟨h.1, h.2, h.3, h.4, h.5, h.6, h.7, h.8⟩)
    (fun _ => rfl) fun _ => rfl) fun _ => ?_
  refine mirrors_endStatement.next fun _ => mirrors_pure ?_
  simp [hname, (Node.plain_jump _ _ _ _).core]

theorem mirrors_returnStatement :
    Mirrors all b g.returnStatement g.returnStatement Tree.outline true := by
  refine mirrors_get fun s s' hb hlike => ?_
  rw [hlike.scope]
  refine (Mirrors.ite rfl (fun _ => mirrors_fail _) fun _ => ?_) s s' hb hlike
  refine mirrors_advance.bind fun _ _ _ => mirrors_get fun u u' hb' hlike' => ?_
  have hends : endsStatement u'.current = endsStatement u.current := by
    have hends := (hlike'.current hb').ends
    simp only [Bool.or_assoc, Token.tag_of_sym hlike'.sym] at hends
    simp only [endsStatement, Bool.or_assoc, Token.tag_of_sym hlike'.sym, hends]
  refine (Mirrors.ite hends (fun _ => ?_) fun _ => ?_) u u' hb' hlike'
  · exact mirrors_endStatement.next fun _ =>
      mirrors_makeNode (Node.plain_leaf _ _) (Node.plain_leaf _ _) rfl
  · refine (hg.expression false true).bind fun value value' h => ?_
    change Mirrors all true
      (endStatement >>= fun _ => makeNode (.leaf .kwReturn _) [value])
      (endStatement >>= fun _ => makeNode (.leaf .kwReturn _) [value']) Tree.outline true
    refine mirrors_endStatement.next fun _ => ?_
    exact mirrors_makeNode (Node.plain_leaf _ _) (Node.plain_leaf _ _) (by simp [h])

theorem mirrors_withStatement :
    Mirrors all b g.withStatement g.withStatement Tree.outline true := by
  refine mirrors_advance.bind fun _ _ _ => (mirrors_expect _ _).bind fun _ _ _ => ?_
  refine (hg.expression false true).bind fun _ _ hobject => ?_
  refine (mirrors_expect _ _).bind fun _ _ _ => ?_
  refine (mirrors_modifyScope _).next fun _ => (hg.statement false true).bind fun _ _ hbody => ?_
  exact mirrors_makeNode (Node.plain_leaf _ _) (Node.plain_leaf _ _) (by simp [hobject, hbody])

/-! ## Switch -/

theorem mirrors_clauseHead (hasDefault : Bool) :
    Mirrors all b (g.clauseHead hasDefault) (g.clauseHead hasDefault)
      (fun r => (r.1.core, r.2.map Tree.outline)) true := by
  refine mirrors_get fun s s' hb hlike => ?_
  dsimp only
  rw [Token.tag_of_sym hlike.sym]
  split
  · refine (mirrors_advance.bind fun _ _ _ => (hg.expression false true).bind fun _ _ h => ?_)
      s s' hb hlike
    refine (mirrors_expect _ _).bind fun _ _ _ => mirrors_pure ?_
    simp [h, (Node.plain_leaf _ _).core]
  · refine (Mirrors.ite rfl (fun _ => mirrors_fail _) fun _ => ?_) s s' hb hlike
    refine mirrors_advance.bind fun _ _ _ => (mirrors_expect _ _).bind fun _ _ _ => mirrors_pure ?_
    simp [(Node.plain_leaf _ _).core]
  · exact mirrors_fail _ s s' hb hlike
  · exact mirrors_unexpected s s' hb hlike

theorem mirrors_clauseTurn (hclauses : ts'.map Tree.outline = ts.map Tree.outline) :
    Mirrors all true (g.clauseTurn ts) (g.clauseTurn ts')
      (Turn.map (List.map Tree.outline) (List.map Tree.outline)) true := by
  have hends : ∀ t t' : Token, t'.sym = t.sym → endsClause t' = endsClause t := fun t t' h => by
    rw [endsClause, endsClause, Token.tag_of_sym h]
  rw [clauseTurn, clauseTurn, any_of_outlines .kwDefault hclauses]
  refine mirrors_ifCheck (mirrors_done hclauses) (mirrors_takeComments.bind fun _ _ _ => ?_)
  refine (mirrors_clauseHead hg _).bind fun r r' h => ?_
  obtain ⟨data, test⟩ := r
  obtain ⟨data', test'⟩ := r'
  obtain ⟨hdata, htest⟩ : data'.core = data.core
    ∧ test'.map Tree.outline = test.map Tree.outline := Prod.mk.inj h
  refine mirrors_freshId.next fun _ => ?_
  refine (mirrors_itemsUntil hends (hg.statement false) htest).bind fun _ _ hstatements => ?_
  refine mirrors_again (outlines_concat hclauses ?_)
  rw [outline_withComments _ _ (by simp), outline_withComments _ _ (by simp), Tree.outline_node,
    Tree.outline_node, hdata, hstatements]

theorem mirrors_switchStatement :
    Mirrors all b g.switchStatement g.switchStatement Tree.outline true := by
  have hclauses : Mirrors all true g.clauses g.clauses (List.map Tree.outline) true :=
    mirrors_repeatTurns (φ := List.map Tree.outline) (fun _ _ => mirrors_clauseTurn hg) rfl
  refine mirrors_advance.bind fun _ _ _ => mirrors_freshId.next fun _ => ?_
  refine (mirrors_expect _ _).bind fun _ _ _ => (hg.expression false true).bind fun _ _ hvalue => ?_
  refine (mirrors_expect _ _).bind fun _ _ _ => (mirrors_expect _ _).bind fun _ _ _ => ?_
  refine (mirrors_withTarget hclauses).bind fun clauses clauses' h => ?_
  refine mirrors_takeComments.bind fun _ _ _ => (mirrors_expect _ _).bind fun _ _ _ => ?_
  refine mirrors_withJumps ?_
  rw [outline_withComments _ _ (by simp), outline_withComments _ _ (by simp)]
  simp [hvalue, h, (Node.plain_switchNode _ _).core]

/-! ## Exceptions -/

theorem mirrors_throwStatement :
    Mirrors all b g.throwStatement g.throwStatement Tree.outline true := by
  refine mirrors_advance.bind fun _ _ _ => mirrors_get fun s s' hb hlike => ?_
  -- The end of the input may have lost the line break that a `throw` must not have behind it.
  by_cases hend : s.current.tag = .endOfInput
  · refine mirrorsAt_fails ?_
    split
    · exact ⟨_, rfl⟩
    · exact (hg.endless false).bind s hend
  · rw [(hlike.current hb).lined hend]
    refine (Mirrors.ite rfl (fun _ => mirrors_fail _) fun _ => ?_) s s' hb hlike
    refine (hg.expression false true).bind fun _ _ h => mirrors_endStatement.next fun _ => ?_
    exact mirrors_makeNode (Node.plain_leaf _ _) (Node.plain_leaf _ _) (by simp [h])

theorem mirrors_catchGuard :
    Mirrors all true g.catchGuard g.catchGuard (List.map Tree.outline) true := by
  refine mirrors_ifCheck (mirrors_get fun s s' hb hlike => ?_) (mirrors_pure rfl)
  dsimp only
  rw [hlike.dialect]
  refine (Mirrors.ite rfl (fun _ => mirrors_advance.bind fun _ _ _ => ?_) fun _ => mirrors_fail _)
    s s' hb hlike
  exact (hg.expression false true).bind fun _ _ h => mirrors_pure (by simp [h])

theorem mirrors_catchClause : Mirrors all b g.catchClause g.catchClause Tree.outline true := by
  refine mirrors_advance.bind fun _ _ _ => (mirrors_expect _ _).bind fun _ _ _ => ?_
  refine (mirrors_declaredName _).bind fun p p' hname => ?_
  obtain ⟨name, line⟩ := p
  obtain ⟨name', line'⟩ := p'
  obtain rfl : name' = name := hname
  refine (mirrors_makeNode (Node.plain_identifier _ _) (Node.plain_identifier _ _) rfl).bind ?_
  refine fun _ _ hnode => (mirrors_catchGuard hg).bind fun _ _ hguard => ?_
  refine (mirrors_expect _ _).bind fun _ _ _ => (mirrors_block hg _).bind fun _ _ hhandler => ?_
  exact mirrors_makeNode (Node.plain_leaf _ _) (Node.plain_leaf _ _)
    (by simp [hnode, hguard, hhandler])

theorem mirrors_finallyPart :
    Mirrors all true g.finallyPart g.finallyPart (List.map Tree.outline) true := by
  refine mirrors_ifCheck (mirrors_advance.bind fun _ _ _ => ?_) (mirrors_pure rfl)
  refine (mirrors_block hg _).bind fun _ _ hbody => ?_
  refine (mirrors_makeNode (Node.plain_leaf _ _) (Node.plain_leaf _ _) (by simp [hbody])).bind ?_
  exact fun _ _ h => mirrors_pure (by simp [h])

theorem mirrors_tryStatement : Mirrors all b g.tryStatement g.tryStatement Tree.outline true := by
  have hends : ∀ t t' : Token, t'.sym = t.sym → (t'.tag != .kwCatch) = (t.tag != .kwCatch) :=
    fun t t' h => by rw [Token.tag_of_sym h]
  refine mirrors_advance.bind fun _ _ _ => (mirrors_block hg _).bind fun _ _ hbody => ?_
  refine (mirrors_itemsUntil hends (fun _ => mirrors_catchClause hg) rfl).bind ?_
  refine fun catches catches' hc => (mirrors_finallyPart hg).bind fun finals finals' hf => ?_
  have hparts : (catches' ++ finals').map Tree.outline = (catches ++ finals).map Tree.outline := by
    simp [hc, hf]
  have hempty : (catches' ++ finals').isEmpty = (catches ++ finals).isEmpty := by
    rw [← List.isEmpty_map (f := Tree.outline), hparts, List.isEmpty_map]
  refine .ite hempty (fun _ => mirrors_fail _) fun _ => ?_
  exact mirrors_makeNode (Node.plain_leaf _ _) (Node.plain_leaf _ _) (by simp [hbody, hparts])

/-! ## Expressions and labels -/

theorem mirrors_labelledStatement (name : String) {line line' : Nat} (pending : List NodeId) :
    Mirrors all b (g.labelledStatement name line pending) (g.labelledStatement name line' pending)
      Tree.outline true := by
  refine mirrors_get fun s s' hb hlike => ?_
  have hlabel : labelNamed? name s' = labelNamed? name s := by
    rw [labelNamed?, labelNamed?, hlike.labels]
  rw [hlabel]
  refine (Mirrors.ite rfl (fun _ => mirrors_failAt _ _) fun _ => ?_) s s' hb hlike
  refine mirrors_advance.bind fun _ _ _ => mirrors_freshId.next fun id => ?_
  refine (mirrors_makeNode (Node.plain_identifier _ _) (Node.plain_identifier _ _) rfl).bind ?_
  refine fun _ _ hname => mirrors_within
    (fun s => { s with labels := ⟨name, id, none⟩ :: s.labels, pendingLabels := pending ++ [id] })
    (fun s => { s with labels := ⟨name, id, none⟩ :: s.labels, pendingLabels := pending ++ [id] })
    (fun s t => { t with labels := s.labels }) (fun s t => { t with labels := s.labels })
    (hg.statement false true) (fun _ _ hbody => mirrors_withJumps ?_)
    (fun _ _ h => ⟨h.1, h.2, h.3, h.4, h.5, congrArg (⟨name, id, none⟩ :: ·) h.6, rfl, h.8⟩)
    (fun _ _ _ _ h h' => ⟨h'.1, h'.2, h'.3, h'.4, h'.5, h.6, h'.7, h'.8⟩)
    (fun _ _ => ⟨rfl, rfl⟩) fun _ _ => ⟨rfl, rfl⟩
  simp [hname, hbody, (Node.plain_label _ _).core]

theorem mirrors_simpleStatement (pending : List NodeId) :
    Mirrors all b (g.simpleStatement pending) (g.simpleStatement pending) Tree.outline true := by
  refine mirrors_get fun s s' hb hlike => ?_
  dsimp only
  rw [Token.tag_of_sym hlike.sym, Token.shown_of_sym hlike.sym]
  refine (Mirrors.ite rfl (fun _ => mirrors_fail _) fun _ => ?_) s s' hb hlike
  refine mirrors_get fun u u' hb' hlike' => ?_
  rw [hlike'.scope]
  refine ((mirrors_expressionOf hg false).bind fun value value' h => ?_) u u' hb' hlike'
  have hlabel : Mirrors all true (g.labelledStatement s.current.shown s.current.line pending)
      (g.labelledStatement s.current.shown s'.current.line pending) Tree.outline true :=
    mirrors_labelledStatement hg _ pending
  have hend : Mirrors all true
      (endStatement >>= fun _ => makeNode (.leaf .exprStatement s.current.line) [value])
      (endStatement >>= fun _ => makeNode (.leaf .exprStatement s'.current.line) [value'])
      Tree.outline true :=
    mirrors_endStatement.next fun _ =>
      mirrors_makeNode (Node.plain_leaf _ _) (Node.plain_leaf _ _) (by simp [h])
  rw [tag_of_outline h]
  refine (mirrors_check _).next fun _ => .ite rfl (fun _ => .ite rfl (fun _ => hlabel) fun _ => ?_)
    fun _ => mirrors_warnUnless hend
  exact (mirrors_modifyScope _).next fun _ => hlabel

theorem mirrors_bareStatement (top : Bool) (pending : List NodeId) :
    Mirrors all b (g.bareStatement top pending) (g.bareStatement top pending) Tree.outline
      true := by
  refine mirrors_get fun s s' hb hlike => ?_
  dsimp only
  rw [Token.tag_of_sym hlike.sym]
  split
  · exact mirrors_functionOf hg _ s s' hb hlike
  · exact mirrors_block hg _ s s' hb hlike
  · refine ((mirrors_declarations hg false).bind fun _ _ h => ?_) s s' hb hlike
    exact mirrors_endStatement.next fun _ => mirrors_pure h
  · refine (mirrors_advance.bind fun _ _ _ => ?_) s s' hb hlike
    exact mirrors_makeNode (Node.plain_leaf _ _) (Node.plain_leaf _ _) rfl
  · exact mirrors_ifStatement hg s s' hb hlike
  · exact mirrors_whileStatement hg pending s s' hb hlike
  · exact mirrors_doStatement hg pending s s' hb hlike
  · exact mirrors_forStatement hg pending s s' hb hlike
  · exact mirrors_jumpStatement s s' hb hlike
  · exact mirrors_jumpStatement s s' hb hlike
  · exact mirrors_returnStatement hg s s' hb hlike
  · exact mirrors_withStatement hg s s' hb hlike
  · exact mirrors_switchStatement hg s s' hb hlike
  · exact mirrors_throwStatement hg s s' hb hlike
  · exact mirrors_tryStatement hg s s' hb hlike
  · exact mirrors_simpleStatement hg pending s s' hb hlike

theorem mirrors_statementOf (top : Bool) :
    Mirrors all b (g.statementOf top) (g.statementOf top) Tree.outline true := by
  refine mirrors_takeComments.bind fun comments comments' _ => mirrors_get fun s s' hb hlike => ?_
  dsimp only
  rw [hlike.pendingLabels]
  have hpending : Mirrors all b (modify ({ · with pendingLabels := [] }))
      (modify ({ · with pendingLabels := [] })) id b :=
    mirrors_modify (fun _ _ h => ⟨h.1, h.2, h.3, h.4, h.5, h.6, rfl, h.8⟩) (fun _ => rfl)
      fun _ => rfl
  refine (hpending.next fun _ => (mirrors_bareStatement hg top _).bind fun t t' h => ?_)
    s s' hb hlike
  refine mirrors_pure ?_
  rw [outline_withComments _ _ (by simp), outline_withComments _ _ (by simp), h]

end ScriptPress.Grammar
