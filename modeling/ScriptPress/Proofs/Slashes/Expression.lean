import ScriptPress.Proofs.Slashes.Course

/-! # The places of slashes in expressions

The readers of expressions, one for each reader of the grammar. An expression is read before an
operand and ends behind one.
-/
namespace ScriptPress
open Grammar (Sight Moves)

/-- A grammar whose readers for nested parts go from the places they are called in to those their
callers go on from. -/
structure Grammar.Minds (lx : Lexer) (g : Grammar) : Prop where
  statement : ∀ top headers,
    Moves (Sight.Before lx headers) (g.statement top) fun _ => Sight.Before lx headers
  assignment : ∀ noIn headers,
    Moves (Sight.Before lx headers) (g.assignment noIn) fun _ => Sight.Done lx headers
  expression : ∀ noIn headers,
    Moves (Sight.Before lx headers) (g.expression noIn) fun _ => Sight.Done lx headers
  unary : ∀ headers, Moves (Sight.Before lx headers) g.unary fun _ => Sight.Behind lx headers
  member : ∀ allowCall headers,
    Moves (Sight.Before lx headers) (g.member allowCall) fun _ => Sight.Behind lx headers

namespace Grammar
open Sight (Fair Fresh Before Behind Done AtHeader)
variable {α β : Type} {lx : Lexer} {headers : List Bool} {g : Grammar} {item : Reading α}

/-! ## Loops -/

theorem moves_itemsBetweenCommas {Q : Sight → Prop}
    (hitem : Moves (Before lx headers) item fun _ => Q)
    (hQ : ∀ v, Q v → v.Fresh lx headers) :
    Moves (Before lx headers) (g.itemsBetweenCommas item) fun _ => Q := by
  refine moves_iterate (fun items => hitem.bind fun a => ?_) _ _
  exact moves_ifAccept ((moves_opening rfl).start fun v h => ⟨hQ v h.1, h.2⟩)
    (moves_pure fun _ h => h) (moves_pure fun _ h => h)

theorem moves_itemsUntil {P : Sight → Prop} {ends : Token → Bool}
    (hitem : Moves (fun v => P v ∧ ends v.current = false) item fun _ => P) (first : List α) :
    Moves P (g.itemsUntil ends item first) fun _ => P := by
  refine moves_iterate (fun items => moves_get fun s hs => .ite (fun _ => ?_) fun hends => ?_) _ _
  · exact (moves_pure fun _ h => h).here hs
  · exact (hitem.bind fun _ => moves_pure fun _ h => h).here ⟨hs, hends⟩

/-- Statements up to a token. -/
theorem moves_statements (hg : g.Minds lx) {ends : Token → Bool} (top : Bool)
    (first : List Tree) : Moves (Before lx headers) (g.itemsUntil ends (g.statement top) first)
      fun _ => Before lx headers :=
  moves_itemsUntil ((hg.statement top headers).start fun _ h => h.1) first

/-! ## Literals -/

/-- A token that becomes a leaf of the tree. -/
theorem moves_leaf {tag : Tag} (htag : tag.isClosing = true) (data : Token → Node) :
    Moves (fun v => v.Fresh lx headers ∧ v.current.tag = tag)
      (advance >>= fun t => makeNode (data t) []) fun _ => Behind lx headers :=
  (moves_closing htag).bind fun _ => (blind_makeNode _ _).moves

section
variable (hg : g.Minds lx)
include hg

theorem moves_arrayElement (elements : List Tree) : Moves (Before lx headers)
    (g.arrayElement elements) (Turn.Holds (Before lx headers) fun _ => Before lx headers) := by
  refine moves_ifCheck (moves_pure fun _ h => h.1) (moves_ifCheck ?_ ?_)
  · refine ((moves_opening rfl).start fun _ h => ⟨h.1.1.toFresh, h.2⟩).bind fun _ => ?_
    exact (blind_makeNode _ _).moves.bind fun _ => moves_pure fun _ h => h
  · refine ((hg.assignment false headers).start fun _ h => h.1.1).bind fun _ => moves_ifCheck ?_ ?_
    · refine ((moves_opening rfl).start fun _ h => ⟨h.1.toFresh, h.2⟩).bind fun _ => ?_
      refine moves_ifCheck ?_ (moves_pure fun _ h => h.1)
      exact (moves_warn _ _).bind fun _ => moves_pure fun _ h => h.1
    · exact moves_ifCheck (moves_pure fun _ h => h.1.1.before) (moves_fail _)

theorem moves_arrayLiteral :
    Moves (fun v => v.Fresh lx headers ∧ v.current.tag = .leftBracket) g.arrayLiteral
      fun _ => Behind lx headers := by
  refine (moves_opening rfl).bind fun _ => ?_
  refine (moves_iterate (moves_arrayElement hg) _ []).bind fun _ => ?_
  refine ((moves_expect (moves_closing rfl)).start fun _ h => h.toFresh).bind fun _ => ?_
  exact (blind_makeNode _ _).moves

omit hg in
theorem moves_propertyKey :
    Moves (Fresh lx headers) propertyKey fun _ => Behind lx headers := by
  refine moves_get fun s hs => ?_
  dsimp only
  split
  · next htag => exact (moves_leaf rfl _).here ⟨hs, htag⟩
  · next htag =>
    exact ((moves_closing rfl).bind fun _ => (moves_warn _ _).bind fun _ =>
      (blind_makeNode _ _).moves).here ⟨hs, htag⟩
  · next htag => exact (moves_leaf rfl _).here ⟨hs, htag⟩
  · next htag => exact (moves_leaf rfl _).here ⟨hs, htag⟩
  · exact moves_fail _

theorem moves_objectProperty (parts : List Tree) : Moves (Before lx headers)
    (g.objectProperty parts) (Turn.Holds (Before lx headers) fun _ => Before lx headers) := by
  refine moves_ifCheck (moves_pure fun _ h => h.1) ?_
  refine (moves_propertyKey.start fun _ h => h.1.toFresh).bind fun _ => ?_
  refine ((moves_expect (moves_opening rfl)).start fun _ h => h.toFresh).bind fun _ => ?_
  refine (hg.assignment false headers).bind fun _ => moves_ifCheck ?_ ?_
  · refine ((moves_opening rfl).start fun _ h => ⟨h.1.toFresh, h.2⟩).bind fun _ => ?_
    refine moves_ifCheck ?_ (moves_pure fun _ h => h.1)
    exact (moves_warn _ _).bind fun _ => moves_pure fun _ h => h.1
  · exact moves_ifCheck (moves_pure fun _ h => h.1.1.before) (moves_fail _)

theorem moves_objectLiteral :
    Moves (fun v => v.Fresh lx headers ∧ v.current.tag = .leftBrace) g.objectLiteral
      fun _ => Behind lx headers := by
  refine (moves_opening rfl).bind fun _ => ?_
  refine (moves_iterate (moves_objectProperty hg) _ []).bind fun _ => ?_
  refine ((moves_expect (moves_closing rfl)).start fun _ h => h.toFresh).bind fun _ => ?_
  exact (blind_makeNode _ _).moves

/-! ## Functions -/

/-- Behind a block a statement can begin, and behind the body of a function an operand ends. -/
theorem moves_blockAfterBrace (top : Bool) (line : Nat) (construct : String) :
    Moves (Before lx headers) (g.blockAfterBrace top line construct)
      fun _ v => v.Before lx headers ∧ v.Behind lx headers := by
  refine blind_freshId.moves.bind fun _ => ?_
  refine (moves_statements hg top []).bind fun _ => ?_
  refine moves_takeComments.bind fun _ => ?_
  refine ((moves_expect (moves_either rfl rfl)).start fun _ h => h.toFresh).bind fun _ => ?_
  exact (blind_pure _).moves

omit hg in
theorem moves_parameters :
    Moves (Before lx headers) g.parameters fun _ => Fresh lx headers := by
  refine moves_ifCheck (moves_pure fun _ h => h.1.toFresh) ?_
  refine (moves_itemsBetweenCommas (Q := Fresh lx headers) ?_ fun _ h => h).start fun _ h => h.1
  exact (moves_declaredName.start fun _ h => h.toFresh).bind fun _ =>
    moves_pure fun _ h => h.1.toFresh

omit hg in
theorem moves_functionName (role : FunctionRole) :
    Moves (Fresh lx headers) (functionName role) fun _ => Fresh lx headers := by
  refine moves_get fun s hs => .ite (fun _ => ?_) fun _ => .ite (fun _ => ?_) fun _ => moves_fail _
  · exact ((moves_declaredName.stop fun _ _ h => h.1.toFresh).bind fun _ =>
      (blind_pure _).moves).here hs
  · exact (blind_pure _).moves.here hs

theorem moves_functionOf (role : FunctionRole) :
    Moves (fun v => v.Fresh lx headers ∧ v.current.tag = .kwFunction) (g.functionOf role)
      fun _ v => v.Before lx headers ∧ v.Behind lx headers := by
  refine ((moves_opening rfl).stop fun _ _ h => h.toFresh).bind fun _ => ?_
  refine (moves_functionName role).bind fun _ => ?_
  refine (moves_expect moves_leftParen).bind fun _ => moves_exists fun b => ?_
  refine moves_parameters.bind fun _ => moves_closeParen.bind fun _ => ?_
  refine ((moves_expect (moves_opening rfl)).start fun _ h => h.toFresh).bind fun _ => ?_
  refine blind_freshId.moves.bind fun _ => moves_get fun s hs => ?_
  exact ((moves_inFunction (moves_blockAfterBrace hg true _ _)).bind fun _ =>
    (blind_pure _).moves).here hs

/-! ## Operands -/

theorem moves_primary : Moves (Before lx headers) g.primary fun _ => Behind lx headers := by
  refine moves_get fun s hs => .ite (fun hslash => ?_) fun _ => ?_
  · refine Moves.here (moves_rescan.bind fun _ => moves_get fun t ht => ?_) ⟨hs, hslash⟩
    dsimp only
    rw [show t.current.tag = .regExp from ht.2.1]
    exact (moves_regExp.bind fun _ => (blind_makeNode _ _).moves).here ht
  · refine Moves.here (P := Before lx headers) (moves_get fun t ht => ?_) hs
    dsimp only
    split
    · next htag => exact (moves_arrayLiteral hg).here ⟨ht.toFresh, htag⟩
    · next htag => exact (moves_objectLiteral hg).here ⟨ht.toFresh, htag⟩
    · next htag =>
      refine Moves.here (P := fun v => v.Fresh lx headers ∧ v.current.tag = .leftParen)
        (moves_leftParen.bind fun _ => moves_exists fun b => ?_) ⟨ht.toFresh, htag⟩
      refine (hg.expression false _).bind fun _ => ?_
      exact (moves_closeParen.start fun _ h => h.toFresh).bind fun _ => (blind_pure _).moves
    · next htag =>
      exact ((moves_closing rfl).bind fun _ => (blind_warnOfKeyword _ _).moves.bind fun _ =>
        (blind_noteUse _).moves.bind fun _ => (blind_makeNode _ _).moves).here
          ⟨ht.toFresh, htag⟩
    · next htag => exact (moves_leaf rfl _).here ⟨ht.toFresh, htag⟩
    · next htag => exact (moves_leaf rfl _).here ⟨ht.toFresh, htag⟩
    · next htag => exact absurd htag ht.unread
    · next htag =>
      refine ((moves_closing rfl).bind fun _ => .ite (fun _ => ?_) fun _ => ?_).here
        ⟨ht.toFresh, htag⟩
      · exact (blind_modifyScope _).moves.bind fun _ => (blind_makeNode _ _).moves
      · exact (blind_makeNode _ _).moves
    · exact moves_fail _
    · exact moves_unexpected

theorem moves_arguments :
    Moves (fun v => v.Fresh lx headers ∧ v.current.tag = .leftParen) g.arguments
      fun _ => Behind lx headers := by
  refine moves_leftParen.bind fun _ => moves_exists fun b => ?_
  refine moves_ifCheck ?_ ?_
  · exact (moves_closeParen.start fun _ h => h.1.toFresh).bind fun _ => (blind_pure _).moves
  · refine ((moves_itemsBetweenCommas (hg.assignment false _) fun _ h => h.toFresh).start
      fun _ h => h.1).bind fun _ => ?_
    exact (moves_closeParen.start fun _ h => h.toFresh).bind fun _ => (blind_pure _).moves

omit hg in
theorem moves_propertyName :
    Moves (Fresh lx headers) propertyName fun _ => Behind lx headers := by
  refine moves_get fun s hs => ?_
  dsimp only
  split
  · next htag => exact ((moves_closing rfl).bind fun _ => (blind_pure _).moves).here ⟨hs, htag⟩
  · next htag =>
    exact ((moves_closing rfl).bind fun _ => (moves_warn _ _).bind fun _ =>
      (blind_pure _).moves).here ⟨hs, htag⟩
  · exact moves_fail _

theorem moves_access (allowCall : Bool) (object : Tree) : Moves (Behind lx headers)
    (g.access allowCall object) (Turn.Holds (Behind lx headers) fun _ => Behind lx headers) := by
  have hcall : ∀ (line : Nat) (args : List Tree), Moves (Behind lx headers)
      (makeNode (.call .call object.data line) (object :: args) >>= fun node =>
        (pure (.again node) : Reading (Turn Tree Tree)))
      (Turn.Holds (Behind lx headers) fun _ => Behind lx headers) :=
    fun _ _ => (blind_makeNode _ _).moves.bind fun _ => moves_pure fun _ h => h
  refine moves_get fun s hs => ?_
  dsimp only
  split
  · next htag =>
    refine Moves.here (P := fun v => v.Fresh lx headers ∧ v.current.tag = .dot)
      ((moves_opening rfl).bind fun _ => ?_) ⟨hs.toFresh, htag⟩
    refine (moves_propertyName.start fun _ h => h.toFresh).bind fun _ => ?_
    exact (blind_makeNode _ _).moves.bind fun _ => (blind_makeNode _ _).moves.bind fun _ =>
      moves_pure fun _ h => h
  · next htag =>
    refine Moves.here (P := fun v => v.Fresh lx headers ∧ v.current.tag = .leftBracket)
      ((moves_opening rfl).bind fun _ => ?_) ⟨hs.toFresh, htag⟩
    refine (hg.expression false headers).bind fun _ => ?_
    refine ((moves_expect (moves_closing rfl)).start fun _ h => h.toFresh).bind fun _ => ?_
    exact (blind_makeNode _ _).moves.bind fun _ => moves_pure fun _ h => h
  · next htag =>
    refine .ite (fun _ => ?_) fun _ => (moves_pure fun _ h => h).here hs
    refine Moves.here (P := fun v => v.Fresh lx headers ∧ v.current.tag = .leftParen)
      ((moves_arguments hg).bind fun args => ?_) ⟨hs.toFresh, htag⟩
    exact .ite (fun _ => blind_needActivation.moves.bind fun _ => hcall _ args) fun _ =>
      hcall _ args
  · exact (moves_pure fun _ h => h).here hs

theorem moves_memberOf (allowCall : Bool) :
    Moves (Before lx headers) (g.memberOf allowCall) fun _ => Behind lx headers := by
  have hloop : ∀ object, Moves (Behind lx headers) (g.repeatTurns (g.access allowCall) object)
      fun _ => Behind lx headers := moves_iterate (moves_access hg allowCall) _
  refine moves_get fun s hs => .ite (fun hnew => ?_) fun _ => .ite (fun hfunction => ?_) fun _ => ?_
  · refine Moves.here (P := fun v => v.Fresh lx headers ∧ v.current.tag = .kwNew)
      ((moves_opening rfl).bind fun t => ?_) ⟨hs.toFresh, beq_iff_eq.mp hnew⟩
    refine (hg.member false headers).bind fun callee => moves_ifCheck ?_ ?_
    · exact ((moves_arguments hg).start fun _ h => ⟨h.1.toFresh, h.2⟩).bind fun _ =>
        (blind_makeNode _ _).moves.bind hloop
    · exact ((blind_makeNode _ _).moves.bind hloop).start fun _ h => h.1
  · exact (((moves_functionOf hg .expression).stop fun _ _ h => h.2).bind hloop).here
      ⟨hs.toFresh, beq_iff_eq.mp hfunction⟩
  · exact ((moves_primary hg).bind hloop).here hs

/-! ## Operators -/

/-- A place behind an operand and the operators of a number of levels, counted from those that bind
most tightly. -/
def Within (lx : Lexer) (headers : List Bool) (levels : Nat) (v : Sight) : Prop :=
  v.Behind lx headers ∧ (levels ≠ 0 → v.current.tag ≠ .div)

omit hg in
theorem moves_step : Moves (fun v => v.Fresh lx headers ∧ isStep v.current = true
    ∧ v.current.newlineBefore = false) advance fun _ => Behind lx headers := by
  refine moves_advance fun v t lx' ⟨hv, hstep, hline⟩ hnext => ?_
  simp only [isStep, Bool.or_eq_true, beq_iff_eq] at hstep
  refine hv.behind ?_ ?_ (fun h => absurd h hv.unread) hnext
  · rcases hstep with htag | htag <;> simp [Token.endsOperand, htag, hline]
  · rcases hstep with htag | htag <;> simp [htag]

theorem moves_steppedOperand :
    Moves (Before lx headers) g.steppedOperand fun _ => Behind lx headers := by
  refine (moves_memberOf hg true).bind fun operand => moves_get fun s hs =>
    .ite (fun hstep => .ite (fun _ => ?_) fun _ => moves_fail _) fun _ => ?_
  · rw [Bool.and_eq_true, Bool.not_eq_true'] at hstep
    exact (moves_step.bind fun _ => (blind_makeNode _ _).moves).here ⟨hs.toFresh, hstep⟩
  · exact (blind_pure _).moves.here hs

omit hg in
theorem isOpening_unaryOperator {t : Token} {operator : Tag}
    (h : unaryOperator? t = some operator) : t.tag.isOpening = true := by
  unfold unaryOperator? at h
  split at h
  · next htag => rw [htag]; rfl
  · next htag => rw [htag]; rfl
  · next htag => rw [htag]; rfl
  · cases h

theorem moves_unaryOf : Moves (Before lx headers) g.unaryOf fun _ => Behind lx headers := by
  refine moves_get fun s hs => ?_
  dsimp only
  split
  · next operator hoperator =>
    refine ((moves_opening (isOpening_unaryOperator hoperator)).bind fun _ => ?_).here
      ⟨hs.toFresh, rfl⟩
    exact (hg.unary headers).bind fun _ => (blind_makeNode _ _).moves
  · refine .ite (fun hstep => ?_) fun _ => (moves_steppedOperand hg).here hs
    have htag : s.current.tag.isOpening = true := by
      simp only [isStep, Bool.or_eq_true, beq_iff_eq] at hstep
      rcases hstep with htag | htag <;> rw [htag] <;> rfl
    refine ((moves_opening htag).bind fun _ => ?_).here ⟨hs.toFresh, rfl⟩
    exact (moves_memberOf hg true).bind fun _ =>
      .ite (fun _ => (blind_makeNode _ _).moves) fun _ => moves_failAt _ _

omit hg in
theorem isOperator_binary {noIn : Bool} {t : Token} {p : Tag × Option Tag}
    (h : binaryOperator? noIn t = some p) : t.tag.isOperator = true := by
  obtain ⟨tag⟩ := t
  cases tag <;> first | rfl | cases h

omit hg in
theorem binaryOperator_div {noIn : Bool} {t : Token} (h : t.tag = .div) :
    binaryOperator? noIn t = some (.div, none) := by
  rw [binaryOperator?, h]
  rfl

omit hg in
/-- Once the operators that bind most tightly are read, no slash that divides is left. -/
theorem moves_binaryTurn (noIn : Bool) {levels : Nat} {operand : Reading Tree}
    (ho : Moves (Before lx headers) operand fun _ => Within lx headers levels) (left : Tree) :
    Moves (Within lx headers levels)
      (binaryTurn noIn (Precedence.multiplicative - levels) operand left)
      (Turn.Holds (Within lx headers levels) fun _ => Within lx headers (levels + 1)) := by
  refine moves_get fun s hs => ?_
  have hlast : (levels = 0 → s.current.tag ≠ .div) → Moves (fun v => v = s.sight)
      (pure (.done left) : Reading (Turn Tree Tree))
      (Turn.Holds (Within lx headers levels) fun _ => Within lx headers (levels + 1)) := by
    refine fun h => moves_pure fun v hv => ⟨hv ▸ hs.1, fun _ => hv ▸ ?_⟩
    by_cases hlevels : levels = 0
    · exact h hlevels
    · exact hs.2 hlevels
  split
  · next tag datum hoperator =>
    refine .ite (fun _ => ?_) fun hlevel => hlast ?_
    · have htag := isOperator_binary hoperator
      refine ((moves_operator htag).bind fun _ => ho.bind fun _ => ?_).here ⟨hs.1, rfl⟩
      exact (blind_makeNode _ _).moves.bind fun _ => moves_pure fun _ h => h
    · rintro rfl hdiv
      rw [binaryOperator_div hdiv] at hoperator
      obtain ⟨rfl, -⟩ := Prod.mk.inj (Option.some.inj hoperator)
      cases hlevel
  · next hnone =>
    refine hlast fun _ hdiv => ?_
    rw [binaryOperator_div hdiv] at hnone
    cases hnone

theorem moves_binaryOf (noIn : Bool) (levels : Nat) :
    Moves (Before lx headers) (g.binaryOf noIn levels) fun _ => Within lx headers levels := by
  induction levels with
  | zero => exact (moves_unaryOf hg).stop fun _ _ h => ⟨h, fun h => absurd rfl h⟩
  | succ levels ih => exact ih.bind (moves_iterate (moves_binaryTurn noIn ih) _)

theorem moves_conditionalOf (noIn : Bool) : Moves (Before lx headers) (g.conditionalOf noIn)
    fun _ v => v.Behind lx headers ∧ v.current.tag ≠ .div := by
  refine (moves_binaryOf hg noIn binaryLevels).bind fun _ => moves_ifCheck ?_ ?_
  · refine ((moves_opening rfl).start fun _ h => ⟨h.1.1.toFresh, h.2⟩).bind fun _ => ?_
    refine (hg.assignment false headers).bind fun _ => ?_
    refine ((moves_expect (moves_opening rfl)).start fun _ h => h.toFresh).bind fun _ => ?_
    refine (hg.assignment noIn headers).bind fun _ => (blind_makeNode _ _).stays fun _ _ h => ?_
    exact ⟨h.toBehind, fun hdiv => by simpa [Token.isSlash, hdiv] using h.plain⟩
  · exact moves_pure fun _ h => ⟨h.1.1, h.1.2 (by decide)⟩

theorem moves_assignmentOf (noIn : Bool) :
    Moves (Before lx headers) (g.assignmentOf noIn) fun _ => Done lx headers := by
  refine (moves_conditionalOf hg noIn).bind fun _ => moves_ifCheck ?_ ?_
  · refine .ite (fun _ => ?_) fun _ => moves_fail _
    refine ((moves_operator rfl).start fun _ h => ⟨h.1.1, h.2⟩).bind fun _ => ?_
    exact (hg.assignment noIn headers).bind fun _ => (blind_makeNode _ _).moves
  · exact moves_pure fun _ h => ⟨h.1.1, by simp [Token.isSlash, h.1.2, h.2]⟩

omit hg in
theorem moves_sequenceTurn {assignment : Reading Tree}
    (ha : Moves (Before lx headers) assignment fun _ => Done lx headers) (left : Tree) :
    Moves (Done lx headers) (sequenceTurn assignment left)
      (Turn.Holds (Done lx headers) fun _ => Done lx headers) := by
  refine moves_ifCheck ?_ (moves_pure fun _ h => h.1)
  refine ((moves_opening rfl).start fun _ h => ⟨h.1.toFresh, h.2⟩).bind fun _ => ?_
  exact ha.bind fun _ => (blind_makeNode _ _).moves.bind fun _ => moves_pure fun _ h => h

theorem moves_expressionOf (noIn : Bool) :
    Moves (Before lx headers) (g.expressionOf noIn) fun _ => Done lx headers := by
  have hassignment : Moves (Before lx headers) (g.assignmentOf noIn) fun _ => Done lx headers :=
    moves_assignmentOf hg noIn
  exact hassignment.bind (moves_iterate (moves_sequenceTurn hassignment) _)

end

end Grammar
end ScriptPress
