import ScriptPress.Proofs.Insertion.Expression

/-! # Statements side by side

The readers of statements. A statement begins and ends where no semicolon is owed: the one that
its last token got is taken at its end.
-/
namespace ScriptPress.Grammar

section
variable {places : List Nat} {x : Stance} {b : Outlook} {g g' : Grammar} {t : Token}

/-! ## Parts of statements -/

theorem tracks_block (hg : Mates places g g') (construct : String) :
    Consumes places (g.block construct) (g'.block construct) :=
  tracks_expect (c := .fits) (by decide)
    (fun brace => (tracks_blockAfterBrace hg false brace.line construct).here) fun _ _ _ => rfl

theorem tracks_declaration (hg : Mates places g g') (noIn : Bool) :
    Consumes places (g.declaration noIn) (g'.declaration noIn) := by
  refine (tracks_declaredName .variableName).next (c := .fits) ?_
  rintro ⟨name, line⟩
  refine (blind_declare _ _).next fun _ => ?_
  refine blind_freshId.next fun id => ?_
  refine tracks_glance (q := pure (.node id (.identifier name line) [])) (fun s => ?_)
    (fun s v hv => ?_) fun _ _ _ _ _ => rfl
  · dsimp only
    split
    · next h =>
      have htag : s.current.tag = .assign := beq_iff_eq.mp (Bool.and_eq_true_iff.mp h).1
      refine .inl (tracks_advance (c := .fits) (by simp [htag]) ?_ fun _ _ => rfl)
      exact (hg.assignment noIn).next fun value => (blind_pure _).tracks
    · exact .inr ⟨(blind_pure _).tracks, rfl⟩
  · simp [State.seeing, hv]

theorem tracks_declarations (hg : Mates places g g') (noIn : Bool) (ht : t.tag ≠ .endOfInput) :
    Tracks places (.facing t) b (g.declarations noIn) (g'.declarations noIn) .behind .fits := by
  refine tracks_advance (c := .fits) ht ?_ fun _ _ => rfl
  exact (tracks_itemsBetweenCommas hg (tracks_declaration hg noIn)).next
    fun names => (blind_makeNode _ _).tracks

theorem tracks_condition (hg : Mates places g g') (keyword : Tag) :
    Consumes places (g.condition keyword) (g'.condition keyword) := by
  have hclose : ∀ test : Tree, Tracks places .behind .fits
      (expect .rightParen .parenAfterCondition >>= fun _ => pure test)
      (expect .rightParen .parenAfterCondition >>= fun _ => pure test) .behind .fits :=
    fun test => tracks_expect (by decide) (fun _ => (blind_pure _).tracks) fun _ _ _ => rfl
  refine tracks_expect (c := .fits) (by decide) (fun _ => ?_) fun _ _ _ => rfl
  refine (hg.expression false).next (c := .fits) fun test => ?_
  dsimp only
  split
  · exact (blind_warn (by simp) _).next fun _ => hclose test
  · exact hclose test

theorem tracks_headerPart {before : Tag} {part part' : Reading Tree}
    (hpart : Consumes places part part') :
    Keeps places (headerPart before part) (headerPart before part') := by
  refine tracks_look (fun s => ?_) fun _ _ _ _ _ => rfl
  dsimp only
  split
  · exact (blind_makeNode _ _).settles
  · exact hpart.here.keeps

/-! ## Branches and loops -/

theorem tracks_ifStatement (hg : Mates places g g') (ht : t.tag ≠ .endOfInput) :
    Tracks places (.facing t) b g.ifStatement g'.ifStatement .anywhere .settled := by
  refine tracks_advance (c := .settled) ht ?_ fun _ _ => rfl
  refine (tracks_condition hg .kwIf).next (c := .settled) fun test => ?_
  refine (hg.statement false).next fun yes => ?_
  refine tracks_ifAccept (c := .settled) (by decide) (by decide) ?_ ?_
  · refine (hg.statement false).next fun no => ?_
    exact (blind_makeNode _ _).tracks
  · exact (blind_makeNode _ _).tracks

theorem tracks_whileStatement (hg : Mates places g g') (pending : List NodeId)
    (ht : t.tag ≠ .endOfInput) : Tracks places (.facing t) b (g.whileStatement pending)
      (g'.whileStatement pending) .anywhere .settled := by
  refine tracks_advance (c := .settled) ht ?_ fun _ _ => rfl
  refine blind_freshId.next fun id => ?_
  refine (tracks_condition hg .kwWhile).next (c := .settled) fun test => ?_
  exact (tracks_withTarget (hg.statement false).here).bind fun body => (blind_withJumps _).tracks

theorem tracks_doStatement (hg : Mates places g g') (pending : List NodeId)
    (ht : t.tag ≠ .endOfInput) : Tracks places (.facing t) b (g.doStatement pending)
      (g'.doStatement pending) .anywhere .settled := by
  refine tracks_advance (c := .settled) ht ?_ fun _ _ => rfl
  refine blind_freshId.next fun id => ?_
  refine (tracks_withTarget (hg.statement false).here).bind fun body => ?_
  refine tracks_expect (c := .settled) (by decide) (fun _ => ?_) fun _ _ _ => rfl
  refine (tracks_condition hg .kwWhile).next (c := .settled) fun test => ?_
  exact tracks_acceptSettled (by decide) (blind_withJumps _).settles (blind_withJumps _).settles

theorem tracks_forStart (hg : Mates places g g') : Keeps places g.forStart g'.forStart := by
  refine tracks_headerPart (tracks_ifCheck (by decide) (fun t ht => ?_) (hg.expression true))
  exact tracks_declarations hg true (by simp [ht])

theorem tracks_forHeader (hg : Mates places g g') (first : Tree) :
    Keeps places (g.forHeader first) (g'.forHeader first) := by
  refine tracks_ifCheck (by decide) (fun t ht => ?_) ?_
  · split
    · refine tracks_advance (c := .settled) (by simp [ht]) ?_ fun _ _ => rfl
      exact (hg.expression false).next fun object => (blind_pure _).settles
    · exact tracks_failAt
  · refine tracks_expect (c := .settled) (by decide) (fun _ => ?_) fun _ _ _ => rfl
    refine (tracks_headerPart (hg.expression false)).next fun test => ?_
    refine tracks_expect (c := .settled) (by decide) (fun _ => ?_) fun _ _ _ => rfl
    exact (tracks_headerPart (hg.expression false)).next fun update => (blind_pure _).tracks

theorem tracks_forStatement (hg : Mates places g g') (pending : List NodeId)
    (ht : t.tag ≠ .endOfInput) : Tracks places (.facing t) b (g.forStatement pending)
      (g'.forStatement pending) .anywhere .settled := by
  refine tracks_advance (c := .settled) ht ?_ fun _ _ => rfl
  refine tracks_expect (c := .settled) (by decide) (fun _ => ?_) fun _ _ _ => rfl
  refine (tracks_forStart hg).next fun first => ?_
  refine (tracks_forHeader hg first).next ?_
  rintro ⟨tag, header⟩
  refine blind_freshId.next fun id => ?_
  refine tracks_expect (c := .settled) (by decide) (fun _ => ?_) fun _ _ _ => rfl
  exact (tracks_withTarget (hg.statement false).here).bind fun body => (blind_withJumps _).tracks

/-! ## Jumps -/

theorem tracks_jumpLabel : Tracks places .behind .fits jumpLabel jumpLabel .behind .fits := by
  refine tracks_glance (q := pure none) (fun s => ?_) (fun s v hv => ?_) fun _ _ _ _ _ => rfl
  · dsimp only
    split
    · next h =>
      have htag : s.current.tag = .identifier := beq_iff_eq.mp (Bool.and_eq_true_iff.mp h).1
      exact .inl (tracks_advance (by simp [htag]) (blind_pure _).tracks fun _ _ => rfl)
    · exact .inr ⟨(blind_pure _).tracks, rfl⟩
  · simp [State.seeing, hv]

theorem blind_labelNode (label? : Option String) (line : Nat) : Blind (labelNode label? line) := by
  cases label? with
  | none => exact blind_pure _
  | some label => exact (blind_makeNode _ _).bind fun _ => blind_pure _

theorem blind_noteJump (jump : NodeId × NodeId) :
    Blind (modify fun s => { s with jumps := s.jumps ++ [jump] } : Reading Unit) :=
  ⟨fun _ _ _ => rfl, fun _ => rfl⟩

theorem tracks_jumpStatement (ht : t.tag ≠ .endOfInput) :
    Tracks places (.facing t) b jumpStatement jumpStatement .anywhere .settled := by
  refine tracks_advance (c := .fits) ht ?_ fun _ _ => rfl
  refine tracks_jumpLabel.bind fun label? => ?_
  refine (blind_destination _ _ _).next fun target => ?_
  refine blind_freshId.next fun id => ?_
  refine (blind_labelNode _ _).next fun name => ?_
  refine (blind_noteJump _).next fun _ => ?_
  exact tracks_endStatement.bind fun _ => (blind_pure _).tracks

theorem tracks_returnStatement (hg : Mates places g g') (ht : t.tag ≠ .endOfInput) :
    Tracks places (.facing t) b g.returnStatement g'.returnStatement .anywhere .settled := by
  have hclose : ∀ value : List Tree, Tracks places .behind .fits
      (endStatement >>= fun _ => makeNode (.leaf .kwReturn t.line) value)
      (endStatement >>= fun _ => makeNode (.leaf .kwReturn t.line) value) .anywhere .settled :=
    fun value => tracks_endStatement.bind fun _ => (blind_makeNode _ _).tracks
  refine tracks_ask (fun s => ?_) fun _ _ _ => rfl
  split
  · exact tracks_fails fun _ => ⟨_, rfl⟩
  refine tracks_advance (c := .fits) ht ?_ fun _ _ => rfl
  refine tracks_glance (q := endStatement >>= fun _ => makeNode (.leaf .kwReturn t.line) [])
    (fun s => ?_) (fun s v hv => ?_) fun _ _ _ _ _ => rfl
  · dsimp only
    split
    · exact .inr ⟨hclose [], rfl⟩
    · exact .inl ((hg.expression false).next fun value => hclose [value])
  · simp [State.seeing, endsStatement, hv]

theorem tracks_throwStatement (hg : Mates places g g') (ht : t.tag ≠ .endOfInput) :
    Tracks places (.facing t) b g.throwStatement g'.throwStatement .anywhere .settled := by
  have hclose : ∀ value : Tree, Tracks places .behind .fits
      (endStatement >>= fun _ => makeNode (.leaf .kwThrow t.line) [value])
      (endStatement >>= fun _ => makeNode (.leaf .kwThrow t.line) [value]) .anywhere .settled :=
    fun value => tracks_endStatement.bind fun _ => (blind_makeNode _ _).tracks
  refine tracks_advance (c := .fits) ht ?_ fun _ _ => rfl
  refine tracks_look (fun s => ?_) fun _ _ _ _ _ => rfl
  split
  · exact tracks_fails fun _ => ⟨_, rfl⟩
  · exact (hg.expression false).next fun value => hclose value

theorem tracks_withStatement (hg : Mates places g g') (ht : t.tag ≠ .endOfInput) :
    Tracks places (.facing t) b g.withStatement g'.withStatement .anywhere .settled := by
  refine tracks_advance (c := .settled) ht ?_ fun _ _ => rfl
  refine tracks_expect (c := .settled) (by decide) (fun _ => ?_) fun _ _ _ => rfl
  refine (hg.expression false).next (c := .settled) fun object => ?_
  refine tracks_expect (c := .settled) (by decide) (fun _ => ?_) fun _ _ _ => rfl
  refine blind_needActivation.next fun _ => ?_
  exact (hg.statement false).next fun body => (blind_makeNode _ _).tracks

/-! ## Clauses -/

theorem tracks_clauseHead (hg : Mates places g g') (hasDefault : Bool) :
    Consumes places (g.clauseHead hasDefault) (g'.clauseHead hasDefault) := by
  refine tracks_look (fun s => ?_) fun _ _ _ _ _ => rfl
  dsimp only
  split
  · next h =>
    refine tracks_advance (c := .fits) (by simp [h]) ?_ fun _ _ => rfl
    refine (hg.expression false).next (c := .fits) fun test => ?_
    exact tracks_expect (by decide) (fun _ => (blind_pure _).tracks) fun _ _ _ => rfl
  · next h =>
    split
    · exact tracks_fails fun _ => ⟨_, rfl⟩
    · refine tracks_advance (c := .fits) (by simp [h]) ?_ fun _ _ => rfl
      exact tracks_expect (by decide) (fun _ => (blind_pure _).tracks) fun _ _ _ => rfl
  · exact tracks_fail
  · exact tracks_unexpected

theorem tracks_clauseTurn (hg : Mates places g g') (clauses : List Tree) :
    Keeps places (g.clauseTurn clauses) (g'.clauseTurn clauses) := by
  refine tracks_ifCheck (by decide) (fun t ht => (blind_pure _).settles) ?_
  refine tracks_takeComments.bind fun comments => ?_
  refine (tracks_clauseHead hg _).next (c := .settled) ?_
  rintro ⟨data, test⟩
  refine blind_freshId.next fun id => ?_
  exact (tracks_statements hg false (fun _ _ _ => rfl) test).next
    fun statements => (blind_pure _).tracks

theorem tracks_switchStatement (hg : Mates places g g') (ht : t.tag ≠ .endOfInput) :
    Tracks places (.facing t) b g.switchStatement g'.switchStatement .anywhere .settled := by
  have hclauses : Keeps places g.clauses g'.clauses :=
    tracks_iterate (tracks_clauseTurn hg) (fun _ h => h) (fun _ h => h)
      (Nat.succ_le_succ hg.bound) []
  refine tracks_advance (c := .settled) ht ?_ fun _ _ => rfl
  refine blind_freshId.next fun id => ?_
  refine tracks_expect (c := .settled) (by decide) (fun _ => ?_) fun _ _ _ => rfl
  refine (hg.expression false).next (c := .settled) fun value => ?_
  refine tracks_expect (c := .settled) (by decide) (fun _ => ?_) fun _ _ _ => rfl
  refine tracks_expect (c := .settled) (by decide) (fun _ => ?_) fun _ _ _ => rfl
  refine (tracks_withTarget hclauses.here).bind fun clauses => ?_
  refine tracks_takeComments.bind fun comments => ?_
  exact tracks_expect (by decide) (fun _ => (blind_withJumps _).settles) fun _ _ _ => rfl

/-! ## Exceptions -/

theorem tracks_catchGuard (hg : Mates places g g') : Keeps places g.catchGuard g'.catchGuard := by
  refine tracks_ifCheck (by decide) (fun t ht => ?_) (blind_pure _).settles
  refine tracks_ask (fun s => ?_) fun s v hv => by simp only [State.seeing, hv]
  dsimp only
  split
  · refine tracks_advance (c := .settled) (by simp [ht]) ?_ fun _ _ => rfl
    exact (hg.expression false).next fun guard => (blind_pure _).settles
  · exact tracks_fail

theorem tracks_catchClause (hg : Mates places g g') (ht : t.tag ≠ .endOfInput) :
    Tracks places (.facing t) b g.catchClause g'.catchClause .behind .fits := by
  refine tracks_advance (c := .fits) ht ?_ fun _ _ => rfl
  refine tracks_expect (c := .fits) (by decide) (fun _ => ?_) fun _ _ _ => rfl
  refine (tracks_declaredName .catchVariable).next (c := .fits) ?_
  rintro ⟨name, line⟩
  refine (blind_makeNode _ _).next fun name => ?_
  refine (tracks_catchGuard hg).next fun guard => ?_
  refine tracks_expect (c := .fits) (by decide) (fun _ => ?_) fun _ _ _ => rfl
  exact (tracks_block hg "catch").next fun handler => (blind_makeNode _ _).tracks

theorem tracks_finallyPart (hg : Mates places g g') :
    Keeps places g.finallyPart g'.finallyPart := by
  refine tracks_ifCheck (by decide) (fun t ht => ?_) (blind_pure _).settles
  refine tracks_advance (c := .settled) (by simp [ht]) ?_ fun _ _ => rfl
  refine (tracks_block hg "finally").next (c := .settled) fun body => ?_
  exact (blind_makeNode _ _).next fun _ => (blind_pure _).settles

theorem tracks_tryStatement (hg : Mates places g g') (ht : t.tag ≠ .endOfInput) :
    Tracks places (.facing t) b g.tryStatement g'.tryStatement .anywhere .settled := by
  have hcatch : ∀ t : Token, (t.tag != .kwCatch) = false →
      Tracks places (.facing t) .settled g.catchClause g'.catchClause .anywhere .settled := by
    intro t h
    have htag : t.tag = .kwCatch := by simpa using h
    exact (tracks_catchClause hg (by simp [htag])).keeps
  refine tracks_advance (c := .settled) ht ?_ fun _ _ => rfl
  refine (tracks_block hg "try").next (c := .settled) fun body => ?_
  refine (tracks_itemsUntil hg hcatch (fun _ _ _ => rfl) []).next fun catches => ?_
  refine (tracks_finallyPart hg).next fun finally? => ?_
  split
  · exact tracks_fails fun _ => ⟨_, rfl⟩
  · exact (blind_makeNode _ _).tracks

/-! ## Expressions and labels -/

theorem tracks_labelledStatement (hg : Mates places g g') (name : String) (line : Nat)
    (pending : List NodeId) (ht : t.tag ≠ .endOfInput) :
    Tracks places (.facing t) b (g.labelledStatement name line pending)
      (g'.labelledStatement name line pending) .anywhere .settled := by
  refine tracks_ask (fun s => ?_) fun _ _ _ => rfl
  split
  · exact tracks_fails fun _ => ⟨_, rfl⟩
  refine tracks_advance (c := .settled) ht ?_ fun _ _ => rfl
  refine blind_freshId.next fun id => ?_
  refine (blind_makeNode _ _).next fun nameNode => ?_
  exact tracks_within
    (fun s => { s with labels := ⟨name, id, none⟩ :: s.labels, pendingLabels := pending ++ [id] })
    (fun s t => { t with labels := s.labels }) (hg.statement false).here
    (fun body => (blind_withJumps _).tracks) (fun _ _ => rfl) (fun _ _ _ _ => rfl)
    fun _ _ => ⟨rfl, rfl⟩

theorem tracks_simpleStatement (hg : Mates places g g') (pending : List NodeId) :
    Keeps places (g.simpleStatement pending) (g'.simpleStatement pending) := by
  have hplain : ∀ (line : Nat) (value : Tree), Tracks places .behind .fits
      (if value.hasEffect = true then endStatement >>= fun _ =>
        makeNode (.leaf .exprStatement line) [value]
      else warn .noSideEffects line >>= fun _ => endStatement >>= fun _ =>
        makeNode (.leaf .exprStatement line) [value])
      (if value.hasEffect = true then endStatement >>= fun _ =>
        makeNode (.leaf .exprStatement line) [value]
      else warn .noSideEffects line >>= fun _ => endStatement >>= fun _ =>
        makeNode (.leaf .exprStatement line) [value]) .anywhere .settled := by
    intro line value
    have hclose : Tracks places .behind .fits
        (endStatement >>= fun _ => makeNode (.leaf .exprStatement line) [value])
        (endStatement >>= fun _ => makeNode (.leaf .exprStatement line) [value])
        .anywhere .settled := tracks_endStatement.bind fun _ => (blind_makeNode _ _).tracks
    split
    · exact hclose
    · exact (blind_warn (by simp) _).next fun _ => hclose
  refine tracks_look (fun s => ?_) fun _ _ _ _ _ => rfl
  dsimp only
  split
  · exact tracks_fails fun _ => ⟨_, rfl⟩
  refine tracks_ask (fun s' => ?_) fun _ _ _ => rfl
  refine (tracks_expressionOf hg false).next (c := .fits) fun value => ?_
  cases hname : s.current.tag == .identifier && value.tag == .identifier with
  | false => exact tracks_checkInVain (hplain _ value) (fun _ => rfl) fun _ => rfl
  | true =>
    refine tracks_check (by decide) (fun t ht => ?_) (hplain _ value)
    have hcolon : t.tag ≠ .endOfInput := by simp [ht]
    simp only [Bool.and_self, if_true]
    split
    · exact tracks_labelledStatement hg _ _ pending hcolon
    · exact (blind_modifyScope _).next fun _ => tracks_labelledStatement hg _ _ pending hcolon

theorem tracks_bareStatement (hg : Mates places g g') (top : Bool) (pending : List NodeId) :
    Keeps places (g.bareStatement top pending) (g'.bareStatement top pending) := by
  refine tracks_look (fun s => ?_) fun _ _ _ _ _ => rfl
  dsimp only
  split
  · next h => exact (tracks_functionOf hg _ (by simp [h])).keeps
  · exact (tracks_block hg "block").here.keeps
  · next h =>
    refine (tracks_declarations hg false (by simp [h])).bind fun vars => ?_
    exact tracks_endStatement.bind fun _ => (blind_pure _).tracks
  · next h => exact tracks_advance (by simp [h]) (blind_makeNode _ _).settles fun _ _ => rfl
  · next h => exact tracks_ifStatement hg (by simp [h])
  · next h => exact tracks_whileStatement hg pending (by simp [h])
  · next h => exact tracks_doStatement hg pending (by simp [h])
  · next h => exact tracks_forStatement hg pending (by simp [h])
  · next h => exact tracks_jumpStatement (by simp [h])
  · next h => exact tracks_jumpStatement (by simp [h])
  · next h => exact tracks_returnStatement hg (by simp [h])
  · next h => exact tracks_withStatement hg (by simp [h])
  · next h => exact tracks_switchStatement hg (by simp [h])
  · next h => exact tracks_throwStatement hg (by simp [h])
  · next h => exact tracks_tryStatement hg (by simp [h])
  · exact (tracks_simpleStatement hg pending).here

theorem tracks_statementOf (hg : Mates places g g') (top : Bool) :
    Keeps places (g.statementOf top) (g'.statementOf top) := by
  refine tracks_takeComments.bind fun comments => ?_
  refine tracks_ask (fun s => ?_) fun _ _ _ => rfl
  have hclear : Blind (modify ({ · with pendingLabels := [] }) : Reading Unit) :=
    ⟨fun _ _ _ => rfl, fun _ => rfl⟩
  refine hclear.next fun _ => ?_
  exact (tracks_bareStatement hg top _).next fun tree => (blind_pure _).tracks

end
end ScriptPress.Grammar
