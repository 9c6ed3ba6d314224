import ScriptPress.Proofs.Rereading.Operand

/-! # Reading operations again

An operation is read at its own level: its left part is read at the level of its place and stops at
the operator, and its right part takes up what follows. Sequences and binary operations go on from
their left part, so that they are read as one turn of the repetition at their level.
-/
namespace ScriptPress.Grammar
open Lexer Render

section
variable {x : Tape} {id : NodeId} {data : Node} {t left right : Tree} {level k : Nat}
  {noIn b : Bool} {place : Place} {more : List WriterStep}

/-! ## Operators as they are read -/

theorem unaryOperator_sym (t : Token) : unaryOperator? t = unaryOperator? t.sym.token := rfl

theorem binaryOperator_sym (noIn : Bool) (t : Token) :
    binaryOperator? noIn t = binaryOperator? noIn t.sym.token := rfl

/-- An expression that binds less tightly than an operand, at a level without repetition. -/
theorem BareYields.of_once (hp : t.data.precedence = k) (hlow : k < Precedence.member)
    (hrep : ¬ Repeats k)
    (h : ∀ {s₀ level noIn place} {b : Bool} {more}, IsPlaceLevel level → level ≤ k →
      (noIn = true → place.noIn = true) → Stops level noIn (x.words false false more) →
      Yields x s₀ (readerAt noIn k) (x.words b false (bareAt x.o t place ++ more)) (x.Redraws t)
        (x.words false false more)) : BareYields x t := by
  subst hp
  exact ⟨fun hle => absurd hlow (Nat.not_lt_of_le hle), fun hrep' => absurd hrep' hrep,
    fun _ _ => h⟩

/-- An expression of a level that is repeated. -/
theorem BareYields.of_loops (hp : t.data.precedence = k) (hrep : Repeats k)
    (h : ∀ {s₀ noIn place} {b : Bool} {more},
      (noIn = true → place.noIn = true ∧ isInOperation t.data = false) →
      Stops (k + 1) noIn (x.words false false more) →
      Continues x s₀ (readerAt noIn k) (turnAt noIn k)
        (x.words b false (bareAt x.o t place ++ more)) t (x.words false false more)) :
    BareYields x t := by
  subst hp
  have hlow : t.data.precedence < Precedence.member := by
    change t.data.precedence = 1 ∨ 4 ≤ t.data.precedence ∧ t.data.precedence ≤ 13 at hrep
    change t.data.precedence < 16
    omega
  exact ⟨fun hle => absurd hlow (Nat.not_lt_of_le hle), fun _ => h,
    fun _ hnot => absurd hrep hnot⟩

/-- What stands at a tight place begins with no operator. -/
theorem unprefixed_at (ht : Formed x.dialect .expr t) (hplace : place.isTight = true) :
    Unprefixed (x.words b false (exprAt x.o t place ++ more)) := by
  obtain ⟨w, ws, hbegin, hwords⟩ := (ht.heads place).words x.o.compact more
  have hoperand := hbegin.tight hplace
  have hdisjoint : ∀ tag ∈ operandTags, tag ∉ prefixTags := by decide
  rw [Tape.words, hwords]
  rintro w' ⟨rfl⟩
  exact hdisjoint _ hoperand

theorem unary_yields {operator : Tag} (h : data.Plain { tag := .unary, datum := some operator })
    (hop : IsUnary x.dialect operator) (hleft : ExprYields x left) :
    BareYields x (.node id data [left]) := by
  have htag : data.tag = .unary := congrArg Core.tag h.core
  have hprecedence : data.precedence = Precedence.unary := by rw [Node.precedence, htag]
  obtain ⟨tag, mark, hsign, htext, hunary⟩ := hop.sign
  have hr : tag ≠ .regExp := by
    rintro rfl
    cases hunary
  refine .of_once hprecedence (by decide) (by decide) fun {s₀ level noIn place b more}
    hlevel hle hnoIn hs => ?_
  have hinner := hleft.operand s₀ noIn (place.next Precedence.unary) false more rfl
    (by decide) hnoIn (hs.mono hle)
  rw [bareAt_unary h.core, ← htext, List.cons_append, Tape.words_sign hsign]
  refine ⟨by rw [List.length_cons]; have := hinner.shorter; omega, fun n s hn hfed => ?_⟩
  have hcurrent : unaryOperator? s.current = some operator := by
    rw [unaryOperator_sym, hfed.sym hr, hunary]
  change Ensures True ((nested n).unaryOf) s _
  rw [unaryOf]
  refine ensures_get ?_
  simp only [hcurrent]
  refine hfed.advance hr fun s₁ hs₁ => ?_
  refine (Yields.inner (m := (·.unary)) hinner (fun _ _ => rfl) n).bind hn hs₁
    fun left' s₂ hleft' hs₂ => ?_
  refine hs₂.makeNode_last fun id' s₃ hs₃ => ⟨?_, hs₃⟩
  have hplain := Node.plain_unary operator s.current.line
  refine redraws_node h hplain (by simp) (.cons hleft'.toRegains .nil) fun o ho place => ?_
  rw [bareAt_unary h.core, bareAt_unary hplain.core]
  exact .cons _ (hleft'.drawn o ho _)

/-! ## Steps -/

theorem stepSign {tag : Tag} (ht : tag = .increment ∨ tag = .decrement) (d : Dialect) :
    IsSign d tag none ∧ signText tag none = tag.spelling := by
  rcases ht with rfl | rfl
  · exact ⟨isSign_everywhere (by decide), rfl⟩
  · exact ⟨isSign_everywhere (by decide), rfl⟩

theorem redraws_step {tag : Tag} {after : Bool} (h : data.Plain { tag := tag, postfixForm := after })
    (ht : tag = .increment ∨ tag = .decrement) {left' : Tree} (hleft : x.Redraws left left')
    (id' : NodeId) (line : Nat) :
    x.Redraws (.node id data [left]) (.node id' (.step tag after line) [left']) := by
  have hplain := Node.plain_step tag after line
  refine redraws_node h hplain ?_ (.cons hleft.toRegains .nil) fun o ho place => ?_
  · rcases ht with rfl | rfl <;> simp
  rw [bareAt_step h.core ht, bareAt_step hplain.core ht]
  split
  · exact (hleft.drawn o ho _).behind _
  · exact .cons _ (hleft.drawn o ho _)

/-- A step behind its operand. -/
theorem postfix_yields {tag : Tag} (h : data.Plain { tag := tag, postfixForm := true })
    (ht : tag = .increment ∨ tag = .decrement) (hassignable : left.tag.isAssignable = true)
    (hleft : ExprYields x left) : BareYields x (.node id data [left]) := by
  have htag : data.tag = tag := congrArg Core.tag h.core
  have hform : data.properties.flag .postfixForm = true := congrArg Core.postfixForm h.core
  have hprecedence : data.precedence = Precedence.postfixStep := by
    rcases ht with rfl | rfl <;> simp [Node.precedence, htag, hform]
  obtain ⟨hsign, hspelled⟩ := stepSign ht x.dialect
  have hr : tag ≠ .regExp := by rcases ht with rfl | rfl <;> simp
  refine .of_once hprecedence (by decide) (by decide) fun {s₀ level noIn place b more}
    hlevel hle hnoIn hs => ?_
  have hsteps : bareAt x.o (.node id data [left]) place ++ more
      = exprAt x.o left (place.lead (.operand Precedence.member))
        ++ .token (signText tag none) :: more := by
    rw [bareAt_step h.core ht, if_pos rfl, hspelled]
    simp
  have hstop : Stops Precedence.member noIn
      (x.words false false (.token (signText tag none) :: more)) := by
    rw [Tape.words_sign hsign]
    rcases ht with rfl | rfl
    · exact stops_sign (fun _ => rfl) (by decide)
    · exact stops_sign (fun _ => rfl) (by decide)
  have hinner := hleft.operand s₀ noIn (place.lead (.operand Precedence.member)) b _ rfl
    (by decide) hnoIn hstop
  have hlt := hinner.shorter
  rw [Tape.words_sign hsign] at hinner hlt
  rw [List.length_cons] at hlt
  rw [hsteps]
  refine ⟨by omega, fun n s hn hfed => ?_⟩
  change Ensures True ((nested n).steppedOperand) s _
  refine (hinner.ensures n s hn hfed).bind fun left' s₁ hread => ensures_get ?_
  obtain ⟨hleft', hs₁⟩ := hread
  have hcurrent : s₁.current.tag = tag := hs₁.tag_eq hr
  have hstep : (isStep s₁.current && !s₁.current.newlineBefore) = true := by
    rw [hs₁.newline rfl, isStep, hcurrent]
    rcases ht with rfl | rfl <;> rfl
  have hcan : left'.tag.isAssignable = true := by rw [hleft'.echo.tag, hassignable]
  dsimp only
  rw [if_pos hstep, if_pos hcan]
  refine hs₁.advance hr fun s₂ hs₂ => ?_
  refine hs₂.makeNode_last fun id' s₃ hs₃ => ⟨?_, hs₃⟩
  rw [hcurrent]
  exact redraws_step h ht hleft' id' _

/-- A step in front of its operand. -/
theorem prefix_yields {tag : Tag} (h : data.Plain { tag := tag, postfixForm := false })
    (ht : tag = .increment ∨ tag = .decrement) (hassignable : left.tag.isAssignable = true)
    (hleft : ExprYields x left) : BareYields x (.node id data [left]) := by
  have htag : data.tag = tag := congrArg Core.tag h.core
  have hform : data.properties.flag .postfixForm = false := congrArg Core.postfixForm h.core
  have hprecedence : data.precedence = Precedence.unary := by
    rcases ht with rfl | rfl <;> simp [Node.precedence, htag, hform]
  obtain ⟨hsign, hspelled⟩ := stepSign ht x.dialect
  have hr : tag ≠ .regExp := by rcases ht with rfl | rfl <;> simp
  refine .of_once hprecedence (by decide) (by decide) fun {s₀ level noIn place b more}
    hlevel hle hnoIn hs => ?_
  have hsteps : bareAt x.o (.node id data [left]) place ++ more
      = .token (signText tag none) :: (exprAt x.o left (place.next Precedence.member) ++ more) := by
    rw [bareAt_step h.core ht, hspelled]
    rfl
  have hinner := hleft.operand s₀ noIn (place.next Precedence.member) false more rfl (by decide)
    hnoIn (hs.mono hlevel.2.1)
  have hlt := hinner.shorter
  rw [hsteps, Tape.words_sign hsign]
  refine ⟨by rw [List.length_cons]; omega, fun n s hn hfed => ?_⟩
  have hcurrent : s.current.tag = tag := hfed.tag_eq hr
  have hstep : isStep s.current = true := by
    rw [isStep, hcurrent]
    rcases ht with rfl | rfl <;> rfl
  have hunary : unaryOperator? s.current = none := by
    rw [unaryOperator?, hcurrent]
    rcases ht with rfl | rfl <;> rfl
  change Ensures True ((nested n).unaryOf) s _
  rw [unaryOf]
  refine ensures_get ?_
  simp only [hunary, hstep, if_true]
  refine hfed.advance hr fun s₁ hs₁ => ?_
  refine (hinner.takes n).bind hn hs₁ fun left' s₂ hleft' hs₂ => ?_
  have hcan : left'.tag.isAssignable = true := by rw [hleft'.echo.tag, hassignable]
  rw [if_pos hcan]
  refine hs₂.makeNode_last fun id' s₃ hs₃ => ⟨?_, hs₃⟩
  rw [hcurrent]
  exact redraws_step h ht hleft' id' _

theorem step_yields {tag : Tag} {after : Bool}
    (h : data.Plain { tag := tag, postfixForm := after })
    (ht : tag = .increment ∨ tag = .decrement) (hassignable : left.tag.isAssignable = true)
    (hleft : ExprYields x left) : BareYields x (.node id data [left]) := by
  cases after with
  | true => exact postfix_yields h ht hassignable hleft
  | false => exact prefix_yields h ht hassignable hleft

/-! ## Assignments and conditions -/

theorem infixed_append (xs ys : List WriterStep) (operator : String) (more : List WriterStep) :
    infixed xs operator ys ++ more
      = xs ++ (.space :: .token operator :: .space :: (ys ++ more)) := by
  simp [infixed]

theorem assign_yields {operator : Option Tag} (h : data.Plain { tag := .assign, datum := operator })
    (hsign : IsSign x.dialect .assign operator) (hassignable : left.tag.isAssignable = true)
    (hformed : Formed x.dialect .expr left) (hleft : ExprYields x left)
    (hright : ExprYields x right) : BareYields x (.node id data [left, right]) := by
  have htag : data.tag = .assign := congrArg Core.tag h.core
  have hprecedence : data.precedence = Precedence.assignment := by rw [Node.precedence, htag]
  have hspelled : operator.elim "" Tag.spelling ++ "=" = signText .assign operator := rfl
  refine .of_once hprecedence (by decide) (by decide) fun {s₀ level noIn place b more}
    hlevel hle hnoIn hs => ?_
  have hvalue := hright.operand s₀ noIn (place.next Precedence.assignment) false more rfl
    (by decide) hnoIn (hs.mono hle)
  have hwords : ∀ steps, x.words false false
      (.space :: .token (signText .assign operator) :: .space :: steps)
        = ⟨⟨.assign, operator, none⟩, false⟩ :: x.words false false steps := fun steps => by
    rw [x.words_space, Tape.words_sign hsign, x.words_space]
  have hstop : ∀ {k steps}, Precedence.assignment < k → Stops k noIn (x.words false false
      (.space :: .token (signText .assign operator) :: .space :: steps)) := by
    intro k steps hk
    rw [hwords]
    refine .of_head fun k' hk' => ?_
    obtain rfl := Option.some.inj hk'
    exact hk
  have htarget := (hleft.operand s₀ noIn (place.lead (.operand Precedence.member)) b
    (.space :: .token (signText .assign operator) :: .space
      :: (exprAt x.o right (place.next Precedence.assignment) ++ more)) rfl (by decide) hnoIn
      (hstop (by decide))).below (by decide : Precedence.conditional ≤ _)
      (hstop (by decide)) (by decide) (Nat.le_refl _) fun _ _ => unprefixed_at hformed rfl
  have hlt := htarget.shorter
  have hlt' := hvalue.shorter
  rw [hwords] at htarget hlt
  rw [List.length_cons] at hlt
  rw [bareAt_assign h.core, hspelled, infixed_append]
  refine ⟨by omega, fun n s hn hfed => ?_⟩
  change Ensures True ((nested n).assignmentOf noIn) s _
  refine (htarget.ensures n s hn hfed).bind fun left' s₁ hread => ?_
  obtain ⟨hleft', hs₁⟩ := hread
  have hcurrent := hs₁.sym (by simp)
  have hcan : left'.tag.isAssignable = true := by rw [hleft'.echo.tag, hassignable]
  refine ensures_ifCheck (fun _ => ?_) fun hne => absurd (congrArg Sym.tag hcurrent) hne
  rw [if_pos hcan]
  refine hs₁.advance (by simp) fun s₂ hs₂ => ?_
  refine (hvalue.inner (nests_assignment noIn) n).bind (by omega) hs₂ fun right' s₃ hright' hs₃ => ?_
  refine hs₃.makeNode_last fun id' s₄ hs₄ => ⟨?_, hs₄⟩
  have hdatum : s₁.current.datum = operator := congrArg Sym.datum hcurrent
  rw [hdatum]
  have hplain := Node.plain_assign operator left'.data right'.data s₁.current.line
  refine redraws_node h hplain (by simp) (.cons hleft'.toRegains (.cons hright'.toRegains .nil))
    fun o ho place => ?_
  rw [bareAt_assign h.core, bareAt_assign hplain.core]
  exact infixed_same _ (hleft'.drawn o ho _) (hright'.drawn o ho _)

/-- An operator between spaces, as a word. -/
theorem Tape.words_operator {tag : Tag} {datum : Option Tag} (h : IsSign x.dialect tag datum)
    (steps : List WriterStep) :
    x.words b false (.space :: .token (signText tag datum) :: .space :: steps)
      = ⟨⟨tag, datum, none⟩, b⟩ :: x.words false false steps := by
  rw [x.words_space, Tape.words_sign h, x.words_space]

theorem conditional_yields {test : Tree} (h : data.Plain { tag := .question })
    (htest : ExprYields x test) (hleft : ExprYields x left) (hright : ExprYields x right) :
    BareYields x (.node id data [test, left, right]) := by
  have htag : data.tag = .question := congrArg Core.tag h.core
  have hprecedence : data.precedence = Precedence.conditional := by rw [Node.precedence, htag]
  have hquestion : IsSign x.dialect .question none := isSign_everywhere (by decide)
  have hcolon : IsSign x.dialect .colon none := isSign_everywhere (by decide)
  refine .of_once hprecedence (by decide) (by decide) fun {s₀ level noIn place b more}
    hlevel hle hnoIn hs => ?_
  -- no place is for conditions alone, so that the words behind go on with no assignment
  have hassignment : level ≤ Precedence.assignment := by
    obtain ⟨-, -, hne⟩ := hlevel
    change level ≤ 3 at hle
    change level ≠ 3 at hne
    change level ≤ 2
    omega
  have hno := hright.operand s₀ noIn (place.next Precedence.assignment) false more rfl
    (by decide) hnoIn (hs.mono hassignment)
  have hstop : Stops Precedence.assignment false (x.words false false (.space
      :: .token (signText .colon none) :: .space
      :: (exprAt x.o right (place.next Precedence.assignment) ++ more))) := by
    rw [Tape.words_operator hcolon]
    exact stops_closer (by decide)
  have hyes := hleft.operand s₀ false (place.next Precedence.assignment) false _ rfl (by decide)
    (fun h => absurd h Bool.false_ne_true) hstop
  have hstop' : Stops Precedence.or noIn (x.words false false (.space
      :: .token (signText .question none) :: .space
      :: (exprAt x.o left (place.next Precedence.assignment) ++ (.space
      :: .token (signText .colon none) :: .space
      :: (exprAt x.o right (place.next Precedence.assignment) ++ more))))) := by
    rw [Tape.words_operator hquestion]
    exact stops_sign (fun _ => rfl) (by decide)
  have hcondition := htest.operand s₀ _ (place.lead (.operand Precedence.or)) b _ rfl (by decide)
    hnoIn hstop'
  have hlt := hcondition.shorter
  have hlt' := hyes.shorter
  have hlt'' := hno.shorter
  rw [Tape.words_operator hcolon] at hyes hlt'
  rw [Tape.words_operator hquestion] at hcondition hlt
  rw [List.length_cons] at hlt hlt'
  have hspelled : "?" = signText .question none := rfl
  have hspelled' : ":" = signText .colon none := rfl
  rw [bareAt_conditional h.core, hspelled, hspelled', infixed_append, infixed_append]
  refine ⟨by omega, fun n s hn hfed => ?_⟩
  change Ensures True ((nested n).conditionalOf noIn) s _
  refine (hcondition.ensures n s hn hfed).bind fun test' s₁ hread => ?_
  obtain ⟨htest', hs₁⟩ := hread
  have hcurrent : s₁.current.tag = .question := hs₁.tag_eq (by simp)
  refine ensures_ifCheck (fun _ => ?_) fun hne => absurd hcurrent hne
  refine hs₁.advance (by simp) fun s₂ hs₂ => ?_
  refine (hyes.inner (nests_assignment false) n).bind (by omega) hs₂ fun left' s₃ hleft' hs₃ => ?_
  refine hs₃.expect rfl (by decide) fun s₄ hs₄ => ?_
  refine (hno.inner (nests_assignment noIn) n).bind (by omega) hs₄ fun right' s₅ hright' hs₅ => ?_
  refine hs₅.makeNode_last fun id' s₆ hs₆ => ⟨?_, hs₆⟩
  have hplain := Node.plain_leaf .question s₁.current.line
  refine redraws_node h hplain (by simp) (.cons htest'.toRegains (.cons hleft'.toRegains
    (.cons hright'.toRegains .nil))) fun o ho place => ?_
  rw [bareAt_conditional h.core, bareAt_conditional hplain.core]
  exact infixed_same _ (htest'.drawn o ho _)
    (infixed_same _ (hleft'.drawn o ho _) (hright'.drawn o ho _))

/-! ## Repeated operations -/

theorem comma_yields (h : data.Plain { tag := .comma }) (hleft : ExprYields x left)
    (hright : ExprYields x right) : BareYields x (.node id data [left, right]) := by
  have htag : data.tag = .comma := congrArg Core.tag h.core
  have hprecedence : data.precedence = Precedence.comma := by rw [Node.precedence, htag]
  refine .of_loops hprecedence (by decide) fun {s₀ noIn place b more} hnoIn hs => ?_
  have hsecond := hright.operand s₀ noIn (place.next Precedence.assignment) false more rfl
    (by decide) (fun hin => (hnoIn hin).1) hs
  have hwords : x.words false false (.token "," :: .space
      :: (exprAt x.o right (place.next Precedence.assignment) ++ more))
      = ⟨⟨.comma, none, none⟩, false⟩
        :: x.words false false (exprAt x.o right (place.next Precedence.assignment) ++ more) := by
    rw [x.words_text "," .comma (by decide) rfl, x.words_space]
  have hstop : Stops (Precedence.comma + 1) noIn (x.words false false (.token "," :: .space
      :: (exprAt x.o right (place.next Precedence.assignment) ++ more))) := by
    rw [hwords]
    exact stops_sign (fun _ => rfl) (by decide)
  have hfirst := hleft.loops s₀ _ (place.lead (.operand Precedence.comma)) b _
    rfl (by decide) (fun hin => (hnoIn hin).1) hstop
  rw [hwords] at hfirst
  rw [bareAt_comma h.core, List.append_assoc]
  refine hfirst.turn (Nat.lt_succ_of_lt hsecond.shorter) fun n s left' hn hleft' hfed => ?_
  have hcurrent : s.current.tag = .comma := hfed.tag_eq (by simp)
  change Ensures True (sequenceTurn ((nested n).assignmentOf noIn) left') s _
  refine ensures_ifCheck (fun _ => ?_) fun hne => absurd hcurrent hne
  refine hfed.advance (by simp) fun s₁ hs₁ => ?_
  have hread : Takes x s₀ n ((nested n).assignmentOf noIn) _ _ _ := hsecond.takes n
  refine hread.bind (Nat.lt_of_succ_lt hn) hs₁ fun right' s₂ hright' hs₂ => ?_
  refine hs₂.makeNode fun id' s₃ _ hs₃ => ensures_pure ⟨_, rfl, ?_, hs₃⟩
  have hplain := Node.plain_leaf .comma s.current.line
  refine redraws_node h hplain (by simp) (.cons hleft'.toRegains (.cons hright'.toRegains .nil))
    fun o ho place => ?_
  rw [bareAt_comma h.core, bareAt_comma hplain.core]
  exact (hleft'.drawn o ho _).append (.cons _ (.cons _ (hright'.drawn o ho _)))

/-- A sign of an operator that is read as one wherever its expression needs no parentheses. -/
theorem binaryOperator_free {sign : Tag} {mark : Option Tag} {op : Tag × Option Tag}
    (hop : binaryOperator? false (Sym.mk sign mark none).token = some op)
    (hin : noIn = true → op ≠ (.relation, some .kwIn)) :
    binaryOperator? noIn (Sym.mk sign mark none).token = some op := by
  cases noIn with
  | false => exact hop
  | true =>
    have hne := hin rfl
    unfold binaryOperator? at hop ⊢
    split at hop
    case h_2 =>
      obtain rfl := Option.some.inj hop
      exact absurd rfl hne
    all_goals exact hop

theorem binary_yields {tag : Tag} {datum : Option Tag} (h : data.Plain { tag := tag, datum := datum })
    (hop : IsBinary x.dialect tag datum) (hleft : ExprYields x left) (hright : ExprYields x right) :
    BareYields x (.node id data [left, right]) := by
  have htag : data.tag = tag := congrArg Core.tag h.core
  have hdatum : data.datum = datum := congrArg Core.datum h.core
  obtain ⟨k, hk⟩ := hop.level
  obtain ⟨sign, mark, hsign, htext, hbinary⟩ := hop.sign
  have hr : sign ≠ .regExp := by
    rintro rfl
    cases hbinary
  have hrep : Repeats k := .inr (binaryLevel_bounds hk)
  have htags : tag ≠ .string ∧ tag ≠ .objectLit := by
    constructor
    · rintro rfl
      cases hk
    · rintro rfl
      cases hk
  refine .of_loops (precedence_binary htag hk) hrep fun {s₀ noIn place b more} hnoIn hs => ?_
  have hoperator : binaryOperator? noIn (Sym.mk sign mark none).token = some (tag, datum) := by
    refine binaryOperator_free hbinary fun hin heq => ?_
    obtain ⟨rfl, rfl⟩ := Prod.mk.inj heq
    have hno := (hnoIn hin).2
    rw [isInOperation, Tree.data, htag, hdatum] at hno
    cases hno
  have hsecond := hright.operand s₀ noIn (place.next (k + 1)) false more rfl
    (isPlaceLevel_next hrep) (fun hin => (hnoIn hin).1) hs
  have hwords := Tape.words_operator (b := false) hsign
    (exprAt x.o right (place.next (k + 1)) ++ more)
  have hstop : Stops (k + 1) noIn (x.words false false (.space :: .token (signText sign mark)
      :: .space :: (exprAt x.o right (place.next (k + 1)) ++ more))) := by
    rw [hwords]
    refine .of_head fun k' hk' => ?_
    rw [goesOn_operator hoperator hk] at hk'
    obtain rfl := Option.some.inj hk'
    exact Nat.lt_succ_self _
  have hfirst := hleft.loops s₀ _ (place.lead (.operand k)) b _ rfl hrep
    (fun hin => (hnoIn hin).1) hstop
  rw [hwords] at hfirst
  rw [bareAt_binary h.core hk, ← htext, infixed_append]
  refine hfirst.turn (Nat.lt_succ_of_lt hsecond.shorter) fun n s left' hn hleft' hfed => ?_
  have hcurrent : binaryOperator? noIn s.current = some (tag, datum) := by
    rw [binaryOperator_sym, hfed.sym hr, hoperator]
  have hlevel : ¬ k ≤ Precedence.comma := by
    have hlow := (binaryLevel_bounds hk).1
    change 4 ≤ k at hlow
    change ¬ k ≤ 1
    omega
  rw [turnAt, if_neg hlevel, binaryTurn]
  refine ensures_get ?_
  simp only [hcurrent, hk, beq_self_eq_true, if_true]
  refine hfed.advance hr fun s₁ hs₁ => ?_
  refine (hsecond.takes n).bind (Nat.lt_of_succ_lt hn) hs₁ fun right' s₂ hright' hs₂ => ?_
  refine hs₂.makeNode fun id' s₃ _ hs₃ => ensures_pure ⟨_, rfl, ?_, hs₃⟩
  have hplain := Node.plain_binary tag datum left'.data right'.data s.current.line
  refine redraws_node h hplain htags (.cons hleft'.toRegains (.cons hright'.toRegains .nil))
    fun o ho place => ?_
  rw [bareAt_binary h.core hk, bareAt_binary hplain.core hk]
  exact infixed_same _ (hleft'.drawn o ho _) (hright'.drawn o ho _)

end
end ScriptPress.Grammar
