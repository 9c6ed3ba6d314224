import ScriptPress.Proofs.Effects.Course

/-! # Idle statements in expressions

An expression reports what is idle in the functions in it. Its parts are read in the order in which
they are its children.
-/
namespace ScriptPress.Grammar

/-- Readers for nested parts that report the idle statements in what they read. -/
structure Reporting (g : Grammar) : Prop where
  statement : ∀ top, ReportsTree (g.statement top)
  assignment : ∀ noIn, ReportsTree (g.assignment noIn)
  expression : ∀ noIn, ReportsTree (g.expression noIn)
  unary : ReportsTree g.unary
  member : ∀ allowCall, ReportsTree (g.member allowCall)

variable {g : Grammar} {before ts : List Tree} {t left object : Tree} {noIn : Bool}

/-! ## Lists -/

theorem itemsBetweenCommas_reports {P : Tree → Prop} {item : Reading Tree}
    (hitem : Reports [] (fun t => [t]) P item) : ReportsAll (g.itemsBetweenCommas item) := by
  refine reports_repeatItems fun items => ?_
  refine hitem.behind.bind fun t _ => ?_
  refine (preserves_accept .comma).reports fun b => ?_
  split
  · exact reports_pure trivial rfl
  · exact reports_pure trivial rfl

/-- Items behind the first ones. -/
theorem itemsUntil_reports {ends : Token → Bool} {item : Reading Tree} (hitem : ReportsTree item) :
    Reports ts (fun ts => ts) (fun _ => True) (g.itemsUntil ends item ts) := by
  refine reports_repeatItems fun items => ?_
  refine reports_get fun s => ?_
  split
  · exact reports_pure trivial rfl
  · exact hitem.next fun t _ => reports_pure trivial rfl

/-! ## Literals -/

theorem arrayElement_reports (hg : Reporting g) : ReportsItems ts (g.arrayElement ts) := by
  refine reports_ifCheck (reports_pure trivial rfl) (reports_ifCheck ?_ ?_)
  · refine preserves_advance.reports fun t => ?_
    exact reports_leaf.next fun hole _ => reports_pure trivial rfl
  refine (hg.assignment false).next fun element _ => reports_ifCheck ?_ ?_
  · refine preserves_advance.reports fun t => ?_
    refine reports_ifCheck ?_ (reports_pure trivial rfl)
    exact (preserves_warn_other (by nofun) _).reports fun _ => reports_pure trivial rfl
  · exact reports_ifCheck (reports_pure trivial rfl) (reports_fail _)

theorem arrayLiteral_reports (hg : Reporting g) : ReportsTree g.arrayLiteral := by
  refine preserves_advance.reports fun opening => ?_
  refine (reports_repeatItems fun _ => arrayElement_reports hg).bind fun elements _ => ?_
  exact (preserves_expect _ _).reports fun _ => reports_makeNode rfl

theorem propertyKey_reports : ReportsTree propertyKey := by
  refine reports_get fun s => ?_
  dsimp only
  split
  · exact preserves_advance.reports fun _ => reports_leaf
  · refine preserves_advance.reports fun _ => ?_
    exact (preserves_warn_other (by nofun) _).reports fun _ => reports_leaf
  · exact preserves_advance.reports fun _ => reports_leaf
  · exact preserves_advance.reports fun _ => reports_leaf
  · exact reports_fail _

theorem objectProperty_reports (hg : Reporting g) : ReportsItems ts (g.objectProperty ts) := by
  refine reports_ifCheck (reports_pure trivial rfl) ?_
  refine propertyKey_reports.next fun key _ => ?_
  refine (preserves_expect _ _).reports fun _ => ?_
  refine (hg.assignment false).next fun value _ => ?_
  rw [List.append_assoc]
  refine reports_ifCheck ?_ (reports_ifCheck (reports_pure trivial rfl) (reports_fail _))
  refine preserves_advance.reports fun t => ?_
  refine reports_ifCheck ?_ (reports_pure trivial rfl)
  exact (preserves_warn_other (by nofun) _).reports fun _ => reports_pure trivial rfl

theorem objectLiteral_reports (hg : Reporting g) : ReportsTree g.objectLiteral := by
  refine preserves_advance.reports fun opening => ?_
  refine (reports_repeatItems fun _ => objectProperty_reports hg).bind fun parts _ => ?_
  exact (preserves_expect _ _).reports fun _ => reports_makeNode rfl

/-! ## Operands -/

theorem arguments_reports (hg : Reporting g) : ReportsAll g.arguments := by
  refine preserves_advance.reports fun _ => ?_
  have hclose : ∀ args : List Tree, Reports args (fun args => args) (fun _ => True)
      (expect .rightParen .parenAfterArguments >>= fun _ => pure args) := fun args =>
    (preserves_expect _ _).reports fun _ => reports_pure trivial rfl
  refine reports_ifCheck (hclose []) ?_
  exact (itemsBetweenCommas_reports (hg.assignment false)).next hclose

/-- An access leads from an operand to an operand. -/
theorem access_reports (hg : Reporting g) {allowCall : Bool} (hobject : object.Lone) :
    ReportsTurn [object] (g.access allowCall object) := by
  refine reports_get fun s => ?_
  dsimp only
  split
  · refine preserves_advance.reports fun t => preserves_propertyName.reports fun name => ?_
    refine reports_leaf.next fun name _ => ?_
    exact (reports_makeNode rfl).bind fun t ht => reports_pure ht rfl
  · refine preserves_advance.reports fun t => (hg.expression false).next fun index _ => ?_
    refine (preserves_expect _ _).reports fun _ => ?_
    exact (reports_makeNode rfl).bind fun t ht => reports_pure ht rfl
  · split
    · refine (arguments_reports hg).next fun args => ?_
      have hmake : ReportsTurn ([object] ++ args)
          (makeNode (.call .call object.data s.current.line) (object :: args) >>=
            fun t => pure (Turn.again t)) :=
        (reports_makeNode rfl).bind fun t ht => reports_pure ht rfl
      split
      · exact (preserves_modifyScope _).reports fun _ => hmake
      · exact hmake
    · exact reports_pure hobject rfl
  · exact reports_pure hobject rfl

/-! ## Blocks and functions -/

theorem blockAfterBrace_reports (hg : Reporting g) (top : Bool) (line : Nat) (construct : String) :
    ReportsTree (g.blockAfterBrace top line construct) := by
  refine preserves_freshId.reports fun id => ?_
  refine (itemsUntil_reports (hg.statement top)).bind fun statements _ => ?_
  refine preserves_takeComments.reports fun comments => (preserves_expect _ _).reports fun _ => ?_
  exact reports_over ((Tree.over_node rfl).withComments comments)

theorem isSilent_functionNode {data : FunctionData} {line : Nat} {enclosing? : Option NodeId}
    {inner : Scope} : (functionNode data line enclosing? inner).tag.isSilent = true := by
  cases enclosing? <;> rfl

/-- The body of a function is read in a scope of its own, in which concerns are no different. -/
theorem functionOf_reports (hg : Reporting g) (role : FunctionRole) :
    ReportsTree (g.functionOf role) := by
  refine preserves_advance.reports fun opening => (preserves_functionName role).reports fun _ => ?_
  refine (preserves_expect _ _).reports fun _ => preserves_parameters.reports fun _ => ?_
  refine (preserves_expect _ _).reports fun _ => (preserves_expect _ _).reports fun brace => ?_
  refine preserves_freshId.reports fun id => reports_get fun s => ?_
  refine (reports_inFunction (blockAfterBrace_reports hg true brace.line "function")).bind
    fun r _ => ?_
  exact reports_node isSilent_functionNode

/-- What begins with a slash was read again, as a regular expression. -/
theorem reports_rescanned {c : Prop} [Decidable c] {f : PUnit → Reading Tree}
    (h : ReportsTree (f ⟨⟩)) : ReportsTree (if c then rescan >>= f else f ⟨⟩) := by
  split
  · exact preserves_rescan.reports fun _ => h
  · exact h

theorem primary_reports (hg : Reporting g) : ReportsTree g.primary := by
  refine reports_get fun s => reports_rescanned (reports_get fun s => ?_)
  dsimp only
  split
  · exact arrayLiteral_reports hg
  · exact objectLiteral_reports hg
  · refine preserves_advance.reports fun _ => (hg.expression false).next fun inner hinner => ?_
    exact (preserves_expect _ _).reports fun _ => reports_pure hinner rfl
  · refine preserves_advance.reports fun t => (preserves_warnOfKeyword _ _).reports fun _ => ?_
    exact (preserves_modifyScope _).reports fun _ => reports_leaf
  · exact preserves_advance.reports fun _ => reports_leaf
  · exact preserves_advance.reports fun _ => reports_leaf
  · exact preserves_advance.reports fun _ => reports_leaf
  · refine preserves_advance.reports fun t => ?_
    split
    · exact (preserves_modifyScope _).reports fun _ => reports_leaf
    · exact reports_leaf
  · exact reports_fail _
  · exact reports_unexpected

theorem memberOf_reports (hg : Reporting g) (allowCall : Bool) :
    ReportsTree (g.memberOf allowCall) := by
  have htail : ∀ object : Tree, object.Lone →
      Reports [object] (fun t => [t]) Tree.Lone (g.repeatTurns (g.access allowCall) object) :=
    fun object hobject => reports_repeatTurns (fun _ h => access_reports hg h) hobject
  refine reports_get fun s => ?_
  dsimp only
  split
  · refine preserves_advance.reports fun t => (hg.member false).next fun callee _ => ?_
    have hnew : ∀ args : List Tree, Reports (callee :: args) (fun t => [t]) Tree.Lone
        (makeNode (.call .kwNew callee.data t.line) (callee :: args) >>=
          g.repeatTurns (g.access allowCall)) := fun args =>
      (reports_makeNode rfl).bind htail
    exact reports_ifCheck ((arguments_reports hg).next hnew) (hnew [])
  split
  · exact (functionOf_reports hg .expression).bind htail
  · exact (primary_reports hg).bind htail

/-! ## Operators -/

theorem isSilent_step {t : Token} (h : isStep t = true) : t.tag.isSilent = true := by
  have htag : t.tag = .increment ∨ t.tag = .decrement := by simpa [isStep] using h
  rcases htag with htag | htag <;> rw [htag] <;> rfl

theorem steppedOperand_reports (hg : Reporting g) : ReportsTree g.steppedOperand := by
  refine (memberOf_reports hg true).bind fun operand hoperand n s hs => ensures_get ?_
  dsimp only
  split
  · next hstep =>
    split
    · -- the token that is taken is the one that was looked at
      have hadvance : Ensures False advance s fun t s' =>
          t = s.current ∧ s'.reported = s.reported :=
        advance_current.and (preserves_advance s)
      refine hadvance.bind fun t s' ⟨ht, hs'⟩ => ?_
      subst ht
      exact reports_makeNode (isSilent_step (Bool.and_eq_true_iff.mp hstep).1) n s' (hs'.trans hs)
    · exact ensures_fail
  · exact ensures_pure ⟨hs, hoperand⟩

theorem unaryOf_reports (hg : Reporting g) : ReportsTree g.unaryOf := by
  refine reports_get fun s => ?_
  dsimp only
  split
  · exact preserves_advance.reports fun _ => hg.unary.bind fun operand _ => reports_makeNode rfl
  split
  · next hstep =>
    refine preserves_advance.reports fun _ => (memberOf_reports hg true).bind fun operand _ => ?_
    split
    · exact reports_makeNode (isSilent_step hstep)
    · exact reports_failAt _ _
  · exact steppedOperand_reports hg

theorem isSilent_of_level {tag : Tag} {level : Nat} (h : tag.binaryPrecedence? = some level) :
    tag.isSilent = true := by
  cases tag <;> first | rfl | cases h

theorem binaryTurn_reports {level : Nat} {operand : Reading Tree} (hoperand : ReportsTree operand)
    (hleft : left.Lone) : ReportsTurn [left] (binaryTurn noIn level operand left) := by
  refine reports_get fun s => ?_
  split
  · next tag datum _ =>
    split
    · next hlevel =>
      refine preserves_advance.reports fun t => hoperand.next fun right _ => ?_
      have hsilent := isSilent_of_level (beq_iff_eq.mp hlevel)
      exact (reports_makeNode hsilent).bind fun t ht => reports_pure ht rfl
    · exact reports_pure hleft rfl
  · exact reports_pure hleft rfl

theorem binaryOf_reports (hg : Reporting g) (noIn : Bool) (levels : Nat) :
    ReportsTree (g.binaryOf noIn levels) := by
  induction levels with
  | zero => exact unaryOf_reports hg
  | succ levels ih =>
    exact ih.bind fun left hleft => reports_repeatTurns (fun _ h => binaryTurn_reports ih h) hleft

theorem conditionalOf_reports (hg : Reporting g) (noIn : Bool) :
    ReportsTree (g.conditionalOf noIn) := by
  refine (binaryOf_reports hg noIn _).bind fun condition hcondition => ?_
  refine reports_ifCheck ?_ (reports_pure hcondition rfl)
  refine preserves_advance.reports fun t => (hg.assignment false).next fun yes _ => ?_
  refine (preserves_expect _ _).reports fun _ => (hg.assignment noIn).next fun no _ => ?_
  exact reports_makeNode rfl

theorem assignmentOf_reports (hg : Reporting g) (noIn : Bool) :
    ReportsTree (g.assignmentOf noIn) := by
  refine (conditionalOf_reports hg noIn).bind fun target htarget => ?_
  refine reports_ifCheck ?_ (reports_pure htarget rfl)
  split
  · refine preserves_advance.reports fun t => (hg.assignment noIn).next fun value _ => ?_
    exact reports_makeNode rfl
  · exact reports_fail _

theorem sequenceTurn_reports {assignment : Reading Tree} (ha : ReportsTree assignment)
    (hleft : left.Lone) : ReportsTurn [left] (sequenceTurn assignment left) := by
  refine reports_ifCheck ?_ (reports_pure hleft rfl)
  refine preserves_advance.reports fun t => ha.next fun right _ => ?_
  exact (reports_makeNode rfl).bind fun t ht => reports_pure ht rfl

theorem expressionOf_reports (hg : Reporting g) (noIn : Bool) :
    ReportsTree (g.expressionOf noIn) := by
  have ha := assignmentOf_reports hg noIn
  exact ha.bind fun first hfirst =>
    reports_repeatTurns (fun _ h => sequenceTurn_reports ha h) hfirst

end ScriptPress.Grammar
