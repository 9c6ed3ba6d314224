import ScriptPress.Proofs.Insertion.Statement
import ScriptPress.Proofs.Slashes.Expression

/-! # The places of slashes in statements

The readers of statements, one for each reader of the grammar. Behind a statement another one can
begin, with a regular expression if it comes to that.
-/
namespace ScriptPress.Grammar
open Sight (Fair Fresh Before Behind Done AtHeader)
variable {lx : Lexer} {headers : List Bool} {g : Grammar} (hg : g.Minds lx)
include hg

theorem moves_block (construct : String) : Moves (Fresh lx headers) (g.block construct)
    fun _ => Before lx headers :=
  (moves_expect (moves_opening rfl)).bind fun _ =>
    (moves_blockAfterBrace hg false _ construct).stop fun _ _ h => h.1

/-! ## Declarations -/

theorem moves_declaration (noIn : Bool) :
    Moves (Fresh lx headers) (g.declaration noIn) fun _ => Before lx headers := by
  refine moves_declaredName.bind fun _ => (blind_declare _ _).moves.bind fun _ => ?_
  refine blind_freshId.moves.bind fun _ => ?_
  refine moves_get fun s hs => .ite (fun hassign => ?_) fun _ => ?_
  · rw [Bool.and_eq_true, beq_iff_eq] at hassign
    refine ((moves_operator rfl).bind fun _ => ?_).here ⟨hs.2, hassign.1⟩
    exact (hg.assignment noIn headers).bind fun _ => moves_pure fun _ h => h.before
  · exact (moves_pure fun _ h => h).here hs.1

theorem moves_declarations (noIn : Bool) :
    Moves (fun v => v.Fresh lx headers ∧ v.current.tag = .kwVar) (g.declarations noIn)
      fun _ => Before lx headers := by
  refine (moves_opening rfl).bind fun _ => ?_
  refine (moves_itemsBetweenCommas ((moves_declaration hg noIn).start fun _ h => h.toFresh)
    fun _ h => h.toFresh).bind fun _ => ?_
  exact (blind_makeNode _ _).moves

/-! ## Conditions and loops -/

/-- Behind a condition a statement begins. -/
theorem moves_condition (keyword : Tag) : Moves (AtHeader lx headers) (g.condition keyword)
    fun _ => Before lx headers := by
  have hclose : ∀ test : Tree, Moves (Done lx (true :: headers))
      (expect .rightParen .parenAfterCondition >>= fun _ => pure test)
      fun _ => Before lx headers := fun _ =>
    (moves_closeHeader.start fun _ h => h.toFresh).bind fun _ => (blind_pure _).moves
  refine moves_openHeader.bind fun _ => (hg.expression false _).bind fun test => ?_
  exact .ite (fun _ => (moves_warn _ _).bind fun _ => hclose test) fun _ => hclose test

theorem moves_ifStatement : Moves (fun v => v.Fresh lx headers ∧ v.current.tag = .kwIf)
    g.ifStatement fun _ => Before lx headers := by
  refine (moves_headWord (by decide)).bind fun _ => (moves_condition hg _).bind fun _ => ?_
  refine (hg.statement false headers).bind fun _ => (moves_accept rfl).bind fun _ => ?_
  refine .ite (fun _ => ?_) fun _ => (blind_makeNode _ _).moves
  exact (hg.statement false headers).bind fun _ => (blind_makeNode _ _).moves

theorem moves_whileStatement (pending : List NodeId) :
    Moves (fun v => v.Fresh lx headers ∧ v.current.tag = .kwWhile) (g.whileStatement pending)
      fun _ => Before lx headers := by
  refine (moves_headWord (by decide)).bind fun _ => blind_freshId.moves.bind fun _ => ?_
  refine (moves_condition hg _).bind fun _ => ?_
  exact (moves_withTarget (hg.statement false headers)).bind fun _ => (blind_withJumps _).moves

theorem moves_doStatement (pending : List NodeId) :
    Moves (fun v => v.Fresh lx headers ∧ v.current.tag = .kwDo) (g.doStatement pending)
      fun _ => Before lx headers := by
  refine (moves_opening rfl).bind fun _ => blind_freshId.moves.bind fun _ => ?_
  refine (moves_withTarget (hg.statement false headers)).bind fun _ => ?_
  refine ((moves_expect (moves_headWord (by decide))).start fun _ h => h.toFresh).bind fun _ => ?_
  refine (moves_condition hg _).bind fun _ => ?_
  exact (moves_accept rfl).bind fun _ => (blind_withJumps _).moves

omit hg in
theorem moves_headerPart (before : Tag) {part : Reading Tree}
    (h : Moves (Before lx headers) part fun _ => Before lx headers) :
    Moves (Before lx headers) (headerPart before part) fun _ => Before lx headers :=
  moves_get fun _ hs => .ite (fun _ => (blind_makeNode _ _).moves.here hs) fun _ => h.here hs

theorem moves_forStart :
    Moves (Before lx headers) g.forStart fun _ => Before lx headers := by
  refine moves_headerPart _ (moves_ifCheck ?_ ?_)
  · exact (moves_declarations hg true).start fun _ h => ⟨h.1.toFresh, h.2⟩
  · exact (hg.expression true headers).mono (fun _ h => h.1) fun _ _ h => h.before

theorem moves_forHeader (first : Tree) :
    Moves (Before lx headers) (g.forHeader first) fun _ => Before lx headers := by
  have hexpression : Moves (Before lx headers) (g.expression false) fun _ => Before lx headers :=
    (hg.expression false headers).stop fun _ _ h => h.before
  have hsemicolon : ∀ what, Moves (Before lx headers) (expect .semicolon what)
      fun _ => Before lx headers := fun _ =>
    (moves_expect (moves_opening rfl)).start fun _ h => h.toFresh
  refine moves_ifCheck (.ite (fun _ => ?_) fun _ => moves_failAt _ _) ?_
  · refine ((moves_opening rfl).start fun _ h => ⟨h.1.toFresh, h.2⟩).bind fun _ => ?_
    exact hexpression.bind fun _ => (blind_pure _).moves
  · refine ((hsemicolon _).start fun _ h => h.1).bind fun _ => ?_
    refine (moves_headerPart _ hexpression).bind fun _ => (hsemicolon _).bind fun _ => ?_
    exact (moves_headerPart _ hexpression).bind fun _ => (blind_pure _).moves

theorem moves_forStatement (pending : List NodeId) :
    Moves (fun v => v.Fresh lx headers ∧ v.current.tag = .kwFor) (g.forStatement pending)
      fun _ => Before lx headers := by
  refine (moves_headWord (by decide)).bind fun _ => moves_openHeader.bind fun _ => ?_
  refine (moves_forStart hg).bind fun first => (moves_forHeader hg first).bind fun _ => ?_
  refine blind_freshId.moves.bind fun _ => ?_
  refine (moves_closeHeader.start fun _ h => h.toFresh).bind fun _ => ?_
  exact (moves_withTarget (hg.statement false headers)).bind fun _ => (blind_withJumps _).moves

/-! ## Jumps -/

omit hg in
theorem moves_jumpLabel :
    Moves (Before lx headers) jumpLabel fun _ => Before lx headers := by
  refine moves_get fun s hs => .ite (fun hlabel => ?_) fun _ => (blind_pure _).moves.here hs
  rw [Bool.and_eq_true, beq_iff_eq] at hlabel
  exact ((moves_opening rfl).bind fun _ => (blind_pure _).moves).here ⟨hs.toFresh, hlabel.1⟩

omit hg in
theorem moves_jumpStatement {tag : Tag} (htag : tag.isOpening = true) :
    Moves (fun v => v.Fresh lx headers ∧ v.current.tag = tag) jumpStatement
      fun _ => Before lx headers := by
  refine (moves_opening htag).bind fun _ => moves_jumpLabel.bind fun label? => ?_
  refine (blind_destination _ _ _).moves.bind fun _ => blind_freshId.moves.bind fun _ => ?_
  refine (blind_labelNode _ _).moves.bind fun _ => (blind_noteJump _).moves.bind fun _ => ?_
  exact moves_endStatement.bind fun _ => (blind_pure _).moves

theorem moves_returnStatement : Moves (fun v => v.Fresh lx headers ∧ v.current.tag = .kwReturn)
    g.returnStatement fun _ => Before lx headers := by
  refine moves_get fun s hs => .ite (fun _ => moves_fail _) fun _ => ?_
  refine Moves.here ((moves_opening rfl).bind fun _ => moves_get fun t ht => ?_) hs
  refine .ite (fun _ => ?_) fun _ => ?_
  · exact (moves_endStatement.bind fun _ => (blind_makeNode _ _).moves).here ht
  · refine ((hg.expression false headers).bind fun _ => ?_).here ht
    exact (moves_endStatement.start fun _ h => h.before).bind fun _ => (blind_makeNode _ _).moves

theorem moves_withStatement : Moves (fun v => v.Fresh lx headers ∧ v.current.tag = .kwWith)
    g.withStatement fun _ => Before lx headers := by
  refine (moves_headWord (by decide)).bind fun _ => moves_openHeader.bind fun _ => ?_
  refine (hg.expression false _).bind fun _ => ?_
  refine (moves_closeHeader.start fun _ h => h.toFresh).bind fun _ => ?_
  refine blind_needActivation.moves.bind fun _ => ?_
  exact (hg.statement false headers).bind fun _ => (blind_makeNode _ _).moves

/-! ## Switch -/

theorem moves_clauseHead (hasDefault : Bool) :
    Moves (Before lx headers) (g.clauseHead hasDefault) fun _ => Before lx headers := by
  have hcolon : Moves (Fresh lx headers) (expect .colon .colonAfterCase)
      fun _ => Before lx headers := moves_expect (moves_opening rfl)
  refine moves_get fun s hs => ?_
  dsimp only
  split
  · next htag =>
    refine Moves.here (P := fun v => v.Fresh lx headers ∧ v.current.tag = .kwCase)
      ((moves_opening rfl).bind fun _ => (hg.expression false headers).bind fun _ => ?_)
      ⟨hs.toFresh, htag⟩
    exact (hcolon.start fun _ h => h.toFresh).bind fun _ => (blind_pure _).moves
  · next htag =>
    refine .ite (fun _ => moves_fail _) fun _ => ?_
    refine Moves.here (P := fun v => v.Fresh lx headers ∧ v.current.tag = .kwDefault)
      ((moves_opening rfl).bind fun _ => ?_) ⟨hs.toFresh, htag⟩
    exact (hcolon.start fun _ h => h.toFresh).bind fun _ => (blind_pure _).moves
  · exact moves_fail _
  · exact moves_unexpected

theorem moves_clauseTurn (clauses : List Tree) : Moves (Before lx headers) (g.clauseTurn clauses)
    (Turn.Holds (Before lx headers) fun _ => Before lx headers) := by
  refine moves_ifCheck (moves_pure fun _ h => h.1) ?_
  refine (moves_takeComments.start fun _ h => h.1).bind fun _ => ?_
  refine (moves_clauseHead hg _).bind fun _ => blind_freshId.moves.bind fun _ => ?_
  exact (moves_statements hg false _).bind fun _ => moves_pure fun _ h => h

theorem moves_switchStatement : Moves (fun v => v.Fresh lx headers ∧ v.current.tag = .kwSwitch)
    g.switchStatement fun _ => Before lx headers := by
  have hclauses : Moves (Before lx headers) g.clauses fun _ => Before lx headers :=
    moves_iterate (moves_clauseTurn hg) _ []
  refine (moves_opening rfl).bind fun _ => blind_freshId.moves.bind fun _ => ?_
  refine ((moves_expect moves_leftParen).start fun _ h => h.toFresh).bind fun _ =>
    moves_exists fun b => (hg.expression false _).bind fun _ => ?_
  refine (moves_closeParen.start fun _ h => h.toFresh).bind fun _ => ?_
  refine ((moves_expect (moves_opening rfl)).start fun _ h => h.toFresh).bind fun _ => ?_
  refine (moves_withTarget hclauses).bind fun _ => moves_takeComments.bind fun _ => ?_
  refine ((moves_expect (moves_opening rfl)).start fun _ h => h.toFresh).bind fun _ => ?_
  exact (blind_withJumps _).moves

/-! ## Exceptions -/

theorem moves_throwStatement : Moves (fun v => v.Fresh lx headers ∧ v.current.tag = .kwThrow)
    g.throwStatement fun _ => Before lx headers := by
  refine (moves_opening rfl).bind fun _ => moves_get fun t ht => .ite (fun _ => moves_fail _) ?_
  refine fun _ => ((hg.expression false headers).bind fun _ => ?_).here ht
  exact (moves_endStatement.start fun _ h => h.before).bind fun _ => (blind_makeNode _ _).moves

theorem moves_catchGuard :
    Moves (Fresh lx headers) g.catchGuard fun _ => Fresh lx headers := by
  refine moves_ifCheck (moves_get fun s hs => .ite (fun _ => ?_) fun _ => moves_fail _)
    (moves_pure fun _ h => h.1)
  refine ((moves_opening rfl).bind fun _ => (hg.expression false headers).bind fun _ => ?_).here hs
  exact moves_pure fun _ h => h.toFresh

theorem moves_catchClause : Moves (fun v => v.Fresh lx headers ∧ v.current.tag = .kwCatch)
    g.catchClause fun _ => Before lx headers := by
  refine (moves_opening rfl).bind fun _ => ?_
  refine ((moves_expect moves_leftParen).start fun _ h => h.toFresh).bind fun _ =>
    moves_exists fun b => (moves_declaredName.start fun _ h => h.toFresh).bind fun _ => ?_
  refine (blind_makeNode _ _).moves.bind fun _ => ?_
  refine ((moves_catchGuard hg).start fun _ h => h.1.toFresh).bind fun _ => ?_
  refine moves_closeParen.bind fun _ => ?_
  exact ((moves_block hg _).start fun _ h => h.toFresh).bind fun _ => (blind_makeNode _ _).moves

theorem moves_finallyPart :
    Moves (Before lx headers) g.finallyPart fun _ => Before lx headers := by
  refine moves_ifCheck ?_ (moves_pure fun _ h => h.1)
  refine ((moves_opening rfl).start fun _ h => ⟨h.1.toFresh, h.2⟩).bind fun _ => ?_
  exact ((moves_block hg _).start fun _ h => h.toFresh).bind fun _ =>
    (blind_makeNode _ _).moves.bind fun _ => (blind_pure _).moves

theorem moves_tryStatement : Moves (fun v => v.Fresh lx headers ∧ v.current.tag = .kwTry)
    g.tryStatement fun _ => Before lx headers := by
  have hcatch : Moves (fun v => v.Before lx headers ∧ (v.current.tag != .kwCatch) = false)
      g.catchClause fun _ => Before lx headers :=
    (moves_catchClause hg).start fun _ h => ⟨h.1.toFresh, by simpa using h.2⟩
  refine (moves_opening rfl).bind fun _ => ?_
  refine ((moves_block hg _).start fun _ h => h.toFresh).bind fun _ => ?_
  refine (moves_itemsUntil hcatch []).bind fun _ => (moves_finallyPart hg).bind fun _ => ?_
  exact .ite (fun _ => moves_fail _) fun _ => (blind_makeNode _ _).moves

/-! ## Expressions and labels -/

theorem moves_labelledStatement (name : String) (line : Nat) (pending : List NodeId) :
    Moves (fun v => v.Fresh lx headers ∧ v.current.tag = .colon)
      (g.labelledStatement name line pending) fun _ => Before lx headers := by
  refine moves_get fun s hs => .ite (fun _ => moves_failAt _ _) fun _ => ?_
  refine Moves.here ((moves_opening rfl).bind fun _ => blind_freshId.moves.bind fun id => ?_) hs
  refine (blind_makeNode _ _).moves.bind fun _ => ?_
  exact moves_within
    (fun s => { s with labels := ⟨name, id, none⟩ :: s.labels, pendingLabels := pending ++ [id] })
    (fun s t => { t with labels := s.labels }) (hg.statement false headers)
    (fun _ => (blind_withJumps _).moves) fun _ _ => ⟨rfl, rfl⟩

theorem moves_simpleStatement (pending : List NodeId) :
    Moves (Before lx headers) (g.simpleStatement pending) fun _ => Before lx headers := by
  refine moves_get fun s hs => .ite (fun _ => moves_fail _) fun _ => ?_
  refine Moves.here (moves_get fun u hu => ?_) hs
  refine Moves.here ((moves_expressionOf hg false).bind fun value => ?_) hu
  have hend : Moves (Done lx headers)
      (endStatement >>= fun _ => makeNode (.leaf .exprStatement s.current.line) [value])
      fun _ => Before lx headers :=
    (moves_endStatement.start fun _ h => h.before).bind fun _ => (blind_makeNode _ _).moves
  have hplain : Moves (Done lx headers)
      (if value.hasEffect = true then endStatement >>= fun _ =>
        makeNode (.leaf .exprStatement s.current.line) [value]
      else warn .noSideEffects s.current.line >>= fun _ => endStatement >>= fun _ =>
        makeNode (.leaf .exprStatement s.current.line) [value]) fun _ => Before lx headers :=
    .ite (fun _ => hend) fun _ => (moves_warn _ _).bind fun _ => hend
  have hlabel : Moves (fun v => v.Fresh lx headers ∧ v.current.tag = .colon)
      (g.labelledStatement s.current.shown s.current.line pending) fun _ => Before lx headers :=
    moves_labelledStatement hg _ _ _
  refine fun s₁ hs₁ => ensures_check ?_
  refine Moves.ite (P := fun v => v = s₁.sight) (fun hname => ?_) (fun _ => hplain.here hs₁) s₁ rfl
  rw [Bool.and_eq_true, beq_iff_eq] at hname
  have hcolon : s₁.sight.Fresh lx headers ∧ s₁.sight.current.tag = .colon :=
    ⟨hs₁.toFresh, hname.2⟩
  refine .ite (fun _ => hlabel.here hcolon) fun _ => ?_
  exact ((blind_modifyScope _).moves.bind fun _ => hlabel).here hcolon

theorem moves_bareStatement (top : Bool) (pending : List NodeId) :
    Moves (Before lx headers) (g.bareStatement top pending) fun _ => Before lx headers := by
  refine moves_get fun s hs => ?_
  dsimp only
  split
  · next htag =>
    exact ((moves_functionOf hg _).stop fun _ _ h => h.1).here ⟨hs.toFresh, htag⟩
  · exact (moves_block hg _).here hs.toFresh
  · next htag =>
    exact ((moves_declarations hg false).bind fun _ => moves_endStatement.bind fun _ =>
      (blind_pure _).moves).here ⟨hs.toFresh, htag⟩
  · next htag =>
    exact ((moves_opening rfl).bind fun _ => (blind_makeNode _ _).moves).here ⟨hs.toFresh, htag⟩
  · next htag => exact (moves_ifStatement hg).here ⟨hs.toFresh, htag⟩
  · next htag => exact (moves_whileStatement hg pending).here ⟨hs.toFresh, htag⟩
  · next htag => exact (moves_doStatement hg pending).here ⟨hs.toFresh, htag⟩
  · next htag => exact (moves_forStatement hg pending).here ⟨hs.toFresh, htag⟩
  · next htag => exact (moves_jumpStatement rfl).here ⟨hs.toFresh, htag⟩
  · next htag => exact (moves_jumpStatement rfl).here ⟨hs.toFresh, htag⟩
  · next htag => exact (moves_returnStatement hg).here ⟨hs.toFresh, htag⟩
  · next htag => exact (moves_withStatement hg).here ⟨hs.toFresh, htag⟩
  · next htag => exact (moves_switchStatement hg).here ⟨hs.toFresh, htag⟩
  · next htag => exact (moves_throwStatement hg).here ⟨hs.toFresh, htag⟩
  · next htag => exact (moves_tryStatement hg).here ⟨hs.toFresh, htag⟩
  · exact (moves_simpleStatement hg pending).here hs

theorem moves_statementOf (top : Bool) :
    Moves (Before lx headers) (g.statementOf top) fun _ => Before lx headers := by
  have hclear : Blind (modify ({ · with pendingLabels := [] }) : Reading Unit) :=
    ⟨fun _ _ _ => rfl, fun _ => rfl⟩
  refine moves_takeComments.bind fun _ => moves_get fun s hs => Moves.here ?_ hs
  exact hclear.moves.bind fun _ => (moves_bareStatement hg top _).bind fun _ =>
    (blind_pure _).moves

end ScriptPress.Grammar
