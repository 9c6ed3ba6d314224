import ScriptPress.Proofs.Effects.Expression

/-! # Idle statements in statements

An expression statement is reported behind what is idle in its expression. Every other statement
reports what is idle in its parts.
-/
namespace ScriptPress.Grammar
variable {g : Grammar} {before ts : List Tree} {t first value : Tree}

/-! ## Parts -/

theorem condition_reports (hg : Reporting g) (keyword : Tag) :
    ReportsTree (g.condition keyword) := by
  refine (preserves_expect _ _).reports fun _ => (hg.expression false).next fun test htest => ?_
  have hclose : Reports [test] (fun t => [t]) Tree.Lone
      (expect .rightParen .parenAfterCondition >>= fun _ => pure test) :=
    (preserves_expect _ _).reports fun _ => reports_pure htest rfl
  split
  · exact (preserves_warn_other (by nofun) _).reports fun _ => hclose
  · exact hclose

theorem block_reports (hg : Reporting g) (construct : String) : ReportsTree (g.block construct) :=
  (preserves_expect _ _).reports fun brace => blockAfterBrace_reports hg false brace.line construct

/-! ## Variables -/

theorem preserves_declare (name : String) (line : Nat) :
    Preserves State.reported (declare name line) := by
  refine preserves_get fun s => ?_
  split
  · exact preserves_warn_other (by nofun) _
  · exact preserves_modifyScope _

/-- A declared variable. Its name has the value below it, which is why it is not alone. -/
theorem declaration_reports (hg : Reporting g) (noIn : Bool) :
    Reports [] (fun t => [t]) (fun _ => True) (g.declaration noIn) := by
  have hnode : ∀ (value : List Tree) (id : NodeId) (name : String × Nat),
      Reports value (fun t => [t]) (fun _ => True)
        (pure (.node id (.identifier name.1 name.2) value) : Reading Tree) := fun _ _ _ n s hs => by
    refine ensures_pure ⟨?_, trivial⟩
    rw [Reported, List.flatMap_singleton, Tree.idleLines_node, hs]
    simp [Tree.isIdle, Tree.tag, Tree.data, Node.identifier]
  refine (preserves_declaredName _).reports fun name => ?_
  refine (preserves_declare _ _).reports fun _ => preserves_freshId.reports fun id => ?_
  refine reports_get fun s => ?_
  dsimp only
  split
  · refine preserves_advance.reports fun _ => (hg.assignment noIn).next fun value _ => ?_
    exact hnode [value] id name
  · exact hnode [] id name

theorem declarations_reports (hg : Reporting g) (noIn : Bool) :
    ReportsTree (g.declarations noIn) := by
  refine preserves_advance.reports fun opening => ?_
  exact (itemsBetweenCommas_reports (declaration_reports hg noIn)).next fun names =>
    reports_makeNode rfl

/-! ## Plain statements -/

theorem ifStatement_reports (hg : Reporting g) : ReportsTree g.ifStatement := by
  refine preserves_advance.reports fun opening => ?_
  refine (condition_reports hg .kwIf).next fun test _ => (hg.statement false).next fun yes _ => ?_
  have hmake : ∀ no : List Tree, Reports (test :: yes :: no) (fun t => [t]) Tree.Lone
      (makeNode (.leaf .kwIf opening.line) (test :: yes :: no)) := fun no => reports_makeNode rfl
  refine (preserves_accept .kwElse).reports fun b => ?_
  split
  · exact (hg.statement false).next fun no _ => hmake [no]
  · exact hmake []

theorem returnStatement_reports (hg : Reporting g) : ReportsTree g.returnStatement := by
  have hafter : ReportsTree (do
      let opening ← advance
      let value ←
        if endsStatement (← get).current then pure [] else pure [← g.expression false]
      endStatement
      makeNode (.leaf .kwReturn opening.line) value) := by
    refine preserves_advance.reports fun opening => ?_
    have hmake : ∀ value : List Tree, Reports value (fun t => [t]) Tree.Lone
        (endStatement >>= fun _ => makeNode (.leaf .kwReturn opening.line) value) := fun value =>
      preserves_endStatement.reports fun _ => reports_makeNode rfl
    refine reports_get fun s => ?_
    split
    · exact hmake []
    · exact (hg.expression false).next fun value _ => hmake [value]
  refine reports_get fun s => ?_
  split
  · exact reports_fail _
  · exact hafter

theorem withStatement_reports (hg : Reporting g) : ReportsTree g.withStatement := by
  refine preserves_advance.reports fun opening => (preserves_expect _ _).reports fun _ => ?_
  refine (hg.expression false).next fun object _ => (preserves_expect _ _).reports fun _ => ?_
  refine (preserves_modifyScope _).reports fun _ => ?_
  exact (hg.statement false).next fun body _ => reports_makeNode rfl

theorem throwStatement_reports (hg : Reporting g) : ReportsTree g.throwStatement := by
  refine preserves_advance.reports fun opening => reports_get fun s => ?_
  split
  · exact reports_fail _
  refine (hg.expression false).next fun value _ => ?_
  exact preserves_endStatement.reports fun _ => reports_makeNode rfl

/-! ## Exceptions -/

theorem catchGuard_reports (hg : Reporting g) : ReportsAll g.catchGuard := by
  refine reports_ifCheck (reports_get fun s => ?_) (reports_pure trivial rfl)
  dsimp only
  split
  · refine preserves_advance.reports fun _ => ?_
    exact (hg.expression false).next fun guard _ => reports_pure trivial rfl
  · exact reports_fail _

theorem catchClause_reports (hg : Reporting g) : ReportsTree g.catchClause := by
  refine preserves_advance.reports fun opening => (preserves_expect _ _).reports fun _ => ?_
  refine (preserves_declaredName _).reports fun name => reports_leaf.next fun name _ => ?_
  refine (catchGuard_reports hg).next fun guard => (preserves_expect _ _).reports fun _ => ?_
  refine (block_reports hg "catch").next fun handler _ => ?_
  exact reports_makeNode rfl

theorem finallyPart_reports (hg : Reporting g) : ReportsAll g.finallyPart := by
  refine reports_ifCheck ?_ (reports_pure trivial rfl)
  refine preserves_advance.reports fun t => (block_reports hg "finally").next fun body _ => ?_
  exact (reports_makeNode rfl).bind fun t _ => reports_pure trivial rfl

theorem tryStatement_reports (hg : Reporting g) : ReportsTree g.tryStatement := by
  refine preserves_advance.reports fun opening => (block_reports hg "try").next fun body _ => ?_
  refine (itemsUntil_reports (catchClause_reports hg)).behind.bind fun catches _ => ?_
  refine (finallyPart_reports hg).next fun finally? => ?_
  split
  · exact reports_fail _
  · rw [List.append_assoc]
    exact reports_makeNode rfl

/-! ## Loops -/

/-- The body of a loop. -/
theorem loopBody_reports (hg : Reporting g) (id : NodeId) (pending : List NodeId) :
    ReportsTree (withTarget id true pending (g.statement false)) :=
  reports_withTarget (hg.statement false)

theorem whileStatement_reports (hg : Reporting g) (pending : List NodeId) :
    ReportsTree (g.whileStatement pending) := by
  refine preserves_advance.reports fun opening => preserves_freshId.reports fun id => ?_
  refine (condition_reports hg .kwWhile).next fun test _ => ?_
  refine (loopBody_reports hg id pending).next fun body _ => ?_
  exact reports_withJumps (Tree.over_node rfl)

theorem doStatement_reports (hg : Reporting g) (pending : List NodeId) :
    ReportsTree (g.doStatement pending) := by
  refine preserves_advance.reports fun opening => preserves_freshId.reports fun id => ?_
  refine (loopBody_reports hg id pending).next fun body _ => ?_
  refine (preserves_expect _ _).reports fun _ => ?_
  refine (condition_reports hg .kwWhile).next fun test _ => ?_
  exact (preserves_accept _).reports fun _ => reports_withJumps (Tree.over_node rfl)

theorem headerPart_reports {tag : Tag} {part : Reading Tree} (hpart : ReportsTree part) :
    ReportsTree (headerPart tag part) := by
  refine reports_get fun s => ?_
  dsimp only
  split
  · exact reports_leaf
  · exact hpart

theorem forStart_reports (hg : Reporting g) : ReportsTree g.forStart :=
  headerPart_reports (reports_ifCheck (declarations_reports hg true) (hg.expression true))

theorem forHeader_reports (hg : Reporting g) :
    Reports [first] (fun header => header.2) (fun header => header.1.isSilent = true)
      (g.forHeader first) := by
  refine reports_ifCheck ?_ ?_
  · split
    · refine preserves_advance.reports fun _ => ?_
      exact (hg.expression false).next fun object _ => reports_pure rfl rfl
    · exact reports_failAt _ _
  · refine (preserves_expect _ _).reports fun _ => ?_
    refine (headerPart_reports (hg.expression false)).next fun test _ => ?_
    refine (preserves_expect _ _).reports fun _ => ?_
    exact (headerPart_reports (hg.expression false)).next fun update _ => reports_pure rfl rfl

theorem forStatement_reports (hg : Reporting g) (pending : List NodeId) :
    ReportsTree (g.forStatement pending) := by
  refine preserves_advance.reports fun opening => (preserves_expect _ _).reports fun _ => ?_
  refine (forStart_reports hg).next fun first _ => (forHeader_reports hg).bind fun header htag => ?_
  refine preserves_freshId.reports fun id => (preserves_expect _ _).reports fun _ => ?_
  refine (loopBody_reports hg id pending).next fun body _ => ?_
  exact reports_withJumps (Tree.over_node htag)

/-! ## Jumps and switches -/

theorem labelNode_reports (label? : Option String) (line : Nat) :
    ReportsAll (labelNode label? line) := by
  cases label? with
  | none => exact reports_pure trivial rfl
  | some name => exact reports_leaf.next fun t _ => reports_pure trivial rfl

/-- A jump is read from the word that opens it. -/
theorem jumpStatement_reports {n : List Nat} {s : State} (hs : Reported n [] s)
    (htag : s.current.tag.isSilent = true) :
    Ensures False jumpStatement s fun t s' => Reported n [t] s' ∧ t.Lone := by
  have hafter : ∀ opening : Token, opening.tag.isSilent = true → ReportsTree (do
      let label? ← jumpLabel
      let target ← destination opening.tag label? opening.line
      let id ← freshId
      let name ← labelNode label? opening.line
      modify fun s => { s with jumps := s.jumps ++ [(target, id)] }
      endStatement
      return .node id (.jump opening.tag label? target opening.line) name) := by
    intro opening htag
    refine preserves_jumpLabel.reports fun label? => ?_
    refine (preserves_destination _ _ _).reports fun target => ?_
    refine preserves_freshId.reports fun id => ?_
    refine (labelNode_reports label? _).next fun name => reports_modify (fun _ => rfl) ?_
    exact preserves_endStatement.reports fun _ => reports_node htag
  have hadvance : Ensures False advance s fun t s' => t = s.current ∧ s'.reported = s.reported :=
    advance_current.and (preserves_advance s)
  refine hadvance.bind fun opening s' ⟨hopening, hs'⟩ => ?_
  exact hafter opening (hopening ▸ htag) n s' (hs'.trans hs)

theorem clauseHead_reports (hg : Reporting g) (hasDefault : Bool) :
    Reports [] (fun head => head.2) (fun head => head.1.tag.isSilent = true)
      (g.clauseHead hasDefault) := by
  refine reports_get fun s => ?_
  dsimp only
  split
  · refine preserves_advance.reports fun _ => (hg.expression false).next fun test _ => ?_
    exact (preserves_expect _ _).reports fun _ => reports_pure rfl rfl
  · cases hasDefault with
    | true => exact reports_fail _
    | false =>
      refine preserves_advance.reports fun _ => ?_
      exact (preserves_expect _ _).reports fun _ => reports_pure rfl rfl
  · exact reports_fail _
  · exact reports_unexpected

theorem clauseTurn_reports (hg : Reporting g) : ReportsItems ts (g.clauseTurn ts) := by
  refine reports_ifCheck (reports_pure trivial rfl) ?_
  refine preserves_takeComments.reports fun comments => ?_
  refine (clauseHead_reports hg _).behind.bind fun head htag => ?_
  refine preserves_freshId.reports fun id => ?_
  refine ((itemsUntil_reports (hg.statement false)).under ts).bind fun statements _ n s hs => ?_
  exact ensures_pure ⟨reported_over ts ((Tree.over_node htag).withComments comments) hs, trivial⟩

theorem clauses_reports (hg : Reporting g) : ReportsAll g.clauses :=
  reports_repeatItems fun _ => clauseTurn_reports hg

theorem isSilent_switchNode (line : Nat) (clauses : List Tree) :
    (switchNode line clauses).tag.isSilent = true := rfl

theorem switchStatement_reports (hg : Reporting g) : ReportsTree g.switchStatement := by
  refine preserves_advance.reports fun opening => preserves_freshId.reports fun id => ?_
  refine (preserves_expect _ _).reports fun _ => (hg.expression false).next fun value _ => ?_
  refine (preserves_expect _ _).reports fun _ => (preserves_expect _ _).reports fun _ => ?_
  have hclauses : ReportsAll (withTarget id false [] g.clauses) :=
    reports_withTarget (clauses_reports hg)
  refine hclauses.next fun clauses => preserves_takeComments.reports fun comments => ?_
  refine (preserves_expect _ _).reports fun _ => ?_
  exact reports_withJumps ((Tree.over_node (isSilent_switchNode _ _)).withComments comments)

/-! ## Labels and expressions -/

theorem labelledStatement_reports (hg : Reporting g) (name : String) (line : Nat)
    (pending : List NodeId) : ReportsTree (g.labelledStatement name line pending) := by
  have hafter : ReportsTree (do
      let _ ← advance
      let id ← freshId
      let nameNode ← makeNode (.identifier name line) []
      let s ← get
      set { s with labels := ⟨name, id, none⟩ :: s.labels, pendingLabels := pending ++ [id] }
      let body ← g.statement false
      modify ({ · with labels := s.labels })
      withJumps (.node id (.label name line) [nameNode, body])) := by
    refine preserves_advance.reports fun _ => preserves_freshId.reports fun id => ?_
    refine reports_leaf.next fun nameNode _ => reports_getSet (fun _ => rfl) fun s => ?_
    refine (hg.statement false).next fun body _ => reports_modify (fun _ => rfl) ?_
    exact reports_withJumps (Tree.over_node rfl)
  refine reports_get fun s => ?_
  split
  · exact reports_failAt _ _
  · exact hafter

/-- An expression statement is reported when it has no effect. -/
theorem exprStatement_reports (value : Tree) (line : Nat) :
    Reports [value] (fun t => [t]) Tree.Lone (do
      unless value.hasEffect do warn .noSideEffects line
      endStatement
      makeNode (.leaf .exprStatement line) [value]) := by
  intro n s hs
  have hend : ∀ s' : State,
      s'.reported = n ++ (value.idleLines ++ if value.hasEffect then [] else [line]) →
      Ensures False (endStatement >>= fun _ => makeNode (.leaf .exprStatement line) [value]) s'
        fun t s'' => Reported n [t] s'' ∧ t.Lone := by
    intro s' hs'
    have hquiet : Preserves State.reported endStatement := preserves_endStatement
    refine (hquiet s').bind fun _ s'' hs'' => ?_
    refine ensures_freshId' (ensures_pure ⟨?_, nofun⟩)
    rw [Reported, List.flatMap_singleton, Tree.idleLines_exprStatement rfl]
    exact hs''.trans hs'
  rw [Reported, List.flatMap_singleton] at hs
  split
  · next heffect =>
    refine hend s ?_
    rw [hs, if_pos heffect, List.append_nil]
  · next heffect =>
    refine ensures_modify (hend _ ?_)
    rw [if_neg heffect, ← List.append_assoc, ← hs]
    simp [State.reported]

theorem simpleStatement_reports (hg : Reporting g) (pending : List NodeId) :
    ReportsTree (g.simpleStatement pending) := by
  refine reports_get fun s => ?_
  dsimp only
  split
  · exact reports_fail _
  refine reports_get fun _ => (expressionOf_reports hg false).bind fun value hvalue => ?_
  refine reports_check fun b => ?_
  split
  · next hlabel =>
    -- a name that turns out to be a label is not part of the statement
    simp only [Bool.and_eq_true, beq_iff_eq] at hlabel
    refine Reports.forget ?_ (hvalue.idleLines hlabel.1.2)
    split
    · exact labelledStatement_reports hg _ _ pending
    · exact (preserves_modifyScope _).reports fun _ => labelledStatement_reports hg _ _ pending
  · exact exprStatement_reports value s.current.line

theorem bareStatement_reports (hg : Reporting g) (top : Bool) (pending : List NodeId) :
    ReportsTree (g.bareStatement top pending) := by
  intro n s hs
  refine ensures_get ?_
  dsimp only
  split
  · exact functionOf_reports hg _ n s hs
  · exact block_reports hg "block" n s hs
  · exact ((declarations_reports hg false).bind fun vars hvars =>
      preserves_endStatement.reports fun _ => reports_pure hvars rfl) n s hs
  · exact (preserves_advance.reports fun _ => reports_leaf) n s hs
  · exact ifStatement_reports hg n s hs
  · exact whileStatement_reports hg pending n s hs
  · exact doStatement_reports hg pending n s hs
  · exact forStatement_reports hg pending n s hs
  · next htag => exact jumpStatement_reports hs (by rw [htag]; rfl)
  · next htag => exact jumpStatement_reports hs (by rw [htag]; rfl)
  · exact returnStatement_reports hg n s hs
  · exact withStatement_reports hg n s hs
  · exact switchStatement_reports hg n s hs
  · exact throwStatement_reports hg n s hs
  · exact tryStatement_reports hg n s hs
  · exact simpleStatement_reports hg pending n s hs

theorem statementOf_reports (hg : Reporting g) (top : Bool) : ReportsTree (g.statementOf top) := by
  refine preserves_takeComments.reports fun comments => reports_get fun s => ?_
  refine reports_modify (fun _ => rfl) ((bareStatement_reports hg top s.pendingLabels).bind ?_)
  exact fun t ht => reports_over (ht.over.withComments comments)

end ScriptPress.Grammar
