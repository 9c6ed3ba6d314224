import ScriptPress.Proofs.Insertion.Course

/-! # Expressions side by side

The readers of expressions, one for each reader of the grammar. All of them take a token first, so
that no semicolon is owed before an expression; behind its last token one may be.
-/
namespace ScriptPress.Grammar

section
variable {α β : Type} {places : List Nat} {x z : Stance} {b c d : Outlook} {m m' : Reading α}
  {f f' : α → Reading β}

/-- A reader that takes a token first and one last. -/
abbrev Consumes (places : List Nat) (m m' : Reading α) : Prop :=
  Tracks places .anywhere .settled m m' .behind .fits

/-- A reader that leaves no semicolon owed. -/
abbrev Keeps (places : List Nat) (m m' : Reading α) : Prop :=
  Tracks places .anywhere .settled m m' .anywhere .settled

theorem Consumes.next (hm : Consumes places m m')
    (hf : ∀ a, Tracks places .behind c (f a) (f' a) z d) :
    Tracks places x b (m >>= f) (m' >>= f') z d :=
  (hm.mono (fun _ h => h.placed) (fun _ h => Outlook.of_settled h) (fun _ h => h)
    fun _ h => h.fits).bind hf

theorem Keeps.next (hm : Keeps places m m')
    (hf : ∀ a, Tracks places .anywhere .settled (f a) (f' a) z d) :
    Tracks places x b (m >>= f) (m' >>= f') z d :=
  (hm.mono (fun _ h => h.placed) (fun _ h => Outlook.of_settled h) (fun _ h => h)
    fun _ h => h).bind hf

/-- A reader that takes a token last leaves nothing owed where nothing is owed behind it. -/
theorem Tracks.keeps (hm : Tracks places x b m m' .behind .fits) :
    Tracks places x b m m' .anywhere .settled :=
  hm.mono (fun _ h => h) (fun _ h => h) (fun _ h => h.1) fun _ h => h.1

theorem Keeps.here (hm : Keeps places m m') : Tracks places x b m m' .anywhere .settled :=
  hm.mono (fun _ h => h.placed) (fun _ h => Outlook.of_settled h) (fun _ h => h) fun _ h => h

/-- A reader that takes a token first can stand anywhere. -/
theorem Consumes.here (hm : Consumes places m m') : Tracks places x b m m' .behind .fits :=
  hm.mono (fun _ h => h.placed) (fun _ h => Outlook.of_settled h) (fun _ h => h) fun _ h => h

end

/-- Two grammars whose readers for nested parts go side by side, the second one at least as deep. -/
structure Mates (places : List Nat) (g g' : Grammar) : Prop where
  bound : g.bound ≤ g'.bound
  statement : ∀ top, Keeps places (g.statement top) (g'.statement top)
  assignment : ∀ noIn, Consumes places (g.assignment noIn) (g'.assignment noIn)
  expression : ∀ noIn, Consumes places (g.expression noIn) (g'.expression noIn)
  unary : Consumes places g.unary g'.unary
  member : ∀ allowCall, Consumes places (g.member allowCall) (g'.member allowCall)

section
variable {α β : Type} {places : List Nat} {x : Stance} {b : Outlook} {g g' : Grammar}
  {item item' : Reading α} {t : Token}

/-! ## Loops -/

theorem tracks_separatedTurn (hitem : Consumes places item item') (items : List α) :
    Consumes places (separatedTurn item items) (separatedTurn item' items) :=
  hitem.next fun _ => tracks_ifAccept (by decide) (by decide) (blind_pure _).tracks
    (blind_pure _).tracks

theorem tracks_itemsBetweenCommas (hg : Mates places g g') (hitem : Consumes places item item') :
    Consumes places (g.itemsBetweenCommas item) (g'.itemsBetweenCommas item') :=
  tracks_iterate (tracks_separatedTurn hitem) (fun _ h => h.1) (fun _ h => h.1)
    (Nat.succ_le_succ hg.bound) []

/-- A question about a token whose answer does not depend on where it stands. -/
def EndsAlike (ends : Token → Bool) : Prop :=
  ∀ (t : Token) (start stop : Nat), ends (t.placed start stop) = ends t

theorem tracks_untilTurn {ends : Token → Bool}
    (hitem : ∀ t, ends t = false → Tracks places (.facing t) .settled item item' .anywhere .settled)
    (hends : EndsAlike ends) (items : List α) :
    Keeps places (untilTurn ends item items) (untilTurn ends item' items) := by
  refine tracks_look (fun s => ?_) fun s v start stop _ => ?_
  · split
    · exact (blind_pure _).settles
    · next h => exact (hitem _ (by simpa using h)).bind fun _ => (blind_pure _).tracks
  · change (if ends (s.current.placed start stop) = true then _ else _) = _
    rw [hends]

theorem tracks_itemsUntil {ends : Token → Bool} (hg : Mates places g g')
    (hitem : ∀ t, ends t = false → Tracks places (.facing t) .settled item item' .anywhere .settled)
    (hends : EndsAlike ends) (first : List α) :
    Keeps places (g.itemsUntil ends item first) (g'.itemsUntil ends item' first) :=
  tracks_iterate (tracks_untilTurn hitem hends) (fun _ h => h) (fun _ h => h)
    (Nat.succ_le_succ hg.bound) first

/-- Statements up to a token. -/
theorem tracks_statements {ends : Token → Bool} (hg : Mates places g g') (top : Bool)
    (hends : EndsAlike ends) (first : List Tree) :
    Keeps places (g.itemsUntil ends (g.statement top) first)
      (g'.itemsUntil ends (g'.statement top) first) :=
  tracks_itemsUntil hg (fun _ _ => (hg.statement top).here) hends first

/-! ## Literals -/

/-- A token that becomes a leaf of the tree. -/
theorem tracks_leaf {data : Token → Node} (hne : t.tag ≠ .endOfInput)
    (hsame : ∀ start stop, data (t.placed start stop) = data t) :
    Tracks places (.facing t) b (advance >>= fun t => makeNode (data t) [])
      (advance >>= fun t => makeNode (data t) []) .behind .fits :=
  tracks_advance hne (blind_makeNode _ _).tracks fun start stop => by rw [hsame]

theorem tracks_arrayElement (hg : Mates places g g') (elements : List Tree) :
    Keeps places (g.arrayElement elements) (g'.arrayElement elements) := by
  refine tracks_ifCheck (by decide) (fun t ht => (blind_pure _).settles) ?_
  refine tracks_ifCheck (by decide) (fun t ht => ?_) ?_
  · refine tracks_advance (c := .settled) (by simp [ht]) ?_ fun _ _ => rfl
    exact (blind_makeNode _ _).next fun _ => (blind_pure _).settles
  · refine (hg.assignment false).next (c := .settled) fun element => ?_
    refine tracks_ifCheck (by decide) (fun t ht => ?_) ?_
    · refine tracks_advance (c := .settled) (by simp [ht]) ?_ fun _ _ => rfl
      refine tracks_ifCheck (by decide) (fun t ht => ?_) (blind_pure _).settles
      exact (blind_warn (by simp) _).next fun _ => (blind_pure _).settles
    · exact tracks_ifCheck (by decide) (fun t ht => (blind_pure _).settles) tracks_fail

theorem tracks_arrayLiteral (hg : Mates places g g') (ht : t.tag ≠ .endOfInput) :
    Tracks places (.facing t) b g.arrayLiteral g'.arrayLiteral .behind .fits := by
  refine tracks_advance (c := .fits) ht ?_ fun _ _ => rfl
  have hloop : ∀ elements, Keeps places (g.repeatTurns g.arrayElement elements)
      (g'.repeatTurns g'.arrayElement elements) :=
    tracks_iterate (tracks_arrayElement hg) (fun _ h => h) (fun _ h => h)
      (Nat.succ_le_succ hg.bound)
  refine (hloop []).next (b := .fits) fun elements => ?_
  exact tracks_expect (by decide) (fun _ => (blind_makeNode _ _).tracks) fun _ _ _ => rfl

theorem tracks_propertyKey : Consumes places propertyKey propertyKey := by
  refine tracks_look (fun s => ?_) fun _ _ _ _ _ => rfl
  dsimp only
  split
  · next h => exact tracks_leaf (by simp [h]) fun _ _ => rfl
  · next h =>
    refine tracks_advance (c := .fits) (by simp [h]) ?_ fun _ _ => rfl
    exact (blind_warn (by simp) _).next fun _ => (blind_makeNode _ _).tracks
  · next h => exact tracks_leaf (by simp [h]) fun _ _ => rfl
  · next h => exact tracks_leaf (by simp [h]) fun _ _ => rfl
  · exact tracks_fail

theorem tracks_objectProperty (hg : Mates places g g') (parts : List Tree) :
    Keeps places (g.objectProperty parts) (g'.objectProperty parts) := by
  refine tracks_ifCheck (by decide) (fun t ht => (blind_pure _).settles) ?_
  refine tracks_propertyKey.next (c := .settled) fun key => ?_
  refine tracks_expect (c := .settled) (by decide) (fun _ => ?_) fun _ _ _ => rfl
  refine (hg.assignment false).next (c := .settled) fun value => ?_
  refine tracks_ifCheck (by decide) (fun t ht => ?_) ?_
  · refine tracks_advance (c := .settled) (by simp [ht]) ?_ fun _ _ => rfl
    refine tracks_ifCheck (by decide) (fun t ht => ?_) (blind_pure _).settles
    exact (blind_warn (by simp) _).next fun _ => (blind_pure _).settles
  · exact tracks_ifCheck (by decide) (fun t ht => (blind_pure _).settles) tracks_fail

theorem tracks_objectLiteral (hg : Mates places g g') (ht : t.tag ≠ .endOfInput) :
    Tracks places (.facing t) b g.objectLiteral g'.objectLiteral .behind .fits := by
  refine tracks_advance (c := .fits) ht ?_ fun _ _ => rfl
  have hloop : ∀ parts, Keeps places (g.repeatTurns g.objectProperty parts)
      (g'.repeatTurns g'.objectProperty parts) :=
    tracks_iterate (tracks_objectProperty hg) (fun _ h => h) (fun _ h => h)
      (Nat.succ_le_succ hg.bound)
  refine (hloop []).next (b := .fits) fun parts => ?_
  exact tracks_expect (by decide) (fun _ => (blind_makeNode _ _).tracks) fun _ _ _ => rfl

/-! ## Functions -/

theorem tracks_blockAfterBrace (hg : Mates places g g') (top : Bool) (line : Nat)
    (construct : String) :
    Consumes places (g.blockAfterBrace top line construct)
      (g'.blockAfterBrace top line construct) := by
  refine blind_freshId.next fun id => ?_
  refine (tracks_statements hg top (fun _ _ _ => rfl) []).next fun statements => ?_
  refine tracks_takeComments.bind fun comments => ?_
  exact tracks_expect (by decide) (fun _ => (blind_pure _).tracks) fun _ _ _ => rfl

theorem tracks_declaredName (what : Expected) :
    Consumes places (declaredName what) (declaredName what) := by
  refine tracks_look (fun s => ?_) fun _ _ _ _ _ => rfl
  dsimp only
  split
  · next h =>
    refine tracks_advance (c := .fits) (by simp [h]) ?_ fun _ _ => rfl
    exact (blind_warnOfKeyword _ _).next fun _ => (blind_pure _).tracks
  · exact tracks_fail
  · exact tracks_fail

theorem tracks_parameters (hg : Mates places g g') :
    Keeps places g.parameters g'.parameters := by
  refine tracks_ifCheck (by decide) (fun t ht => (blind_pure _).settles) ?_
  have hname : Consumes places (declaredName .formalParameter >>= fun name => pure name.1)
      (declaredName .formalParameter >>= fun name => pure name.1) :=
    (tracks_declaredName _).next fun _ => (blind_pure _).tracks
  exact (tracks_itemsBetweenCommas hg hname).keeps

theorem tracks_functionName (role : FunctionRole) :
    Keeps places (functionName role) (functionName role) := by
  refine tracks_look (fun s => ?_) fun _ _ _ _ _ => rfl
  dsimp only
  split
  · exact (tracks_declaredName _).next fun _ => (blind_pure _).settles
  split
  · exact (blind_pure _).settles
  · exact tracks_fail

theorem tracks_functionOf (hg : Mates places g g') (role : FunctionRole)
    (ht : t.tag ≠ .endOfInput) :
    Tracks places (.facing t) b (g.functionOf role) (g'.functionOf role) .behind .fits := by
  refine tracks_advance (c := .fits) ht ?_ fun _ _ => rfl
  refine (tracks_functionName role).next fun name => ?_
  refine tracks_expect (c := .fits) (by decide) (fun _ => ?_) fun _ _ _ => rfl
  refine (tracks_parameters hg).next fun params => ?_
  refine tracks_expect (c := .fits) (by decide) (fun _ => ?_) fun _ _ _ => rfl
  refine tracks_expect (c := .fits) (by decide) (fun brace => ?_) fun _ _ _ => rfl
  refine blind_freshId.next fun id => ?_
  refine tracks_ask (fun s => ?_) fun _ _ _ => rfl
  refine (tracks_inFunction (tracks_blockAfterBrace hg true brace.line "function").here).bind
    fun body => ?_
  exact (blind_pure _).tracks

/-! ## Operands -/

/-- What is read after a slash was read again, if it was one. -/
theorem tracks_rescanned {f f' : PUnit → Reading β} (hf : Consumes places (f ⟨⟩) (f' ⟨⟩)) :
    Tracks places (.facing t) .settled (if t.isSlash = true then rescan >>= f else f ⟨⟩)
      (if t.isSlash = true then rescan >>= f' else f' ⟨⟩) .behind .fits := by
  split
  · next h => exact (tracks_rescan h).bind fun _ => hf
  · exact hf.here

theorem tracks_primary (hg : Mates places g g') : Consumes places g.primary g'.primary := by
  refine tracks_look (fun s => tracks_rescanned ?_) fun _ _ _ _ _ => rfl
  refine tracks_look (fun s => ?_) fun _ _ _ _ _ => rfl
  dsimp only
  split
  · next h => exact tracks_arrayLiteral hg (by simp [h])
  · next h => exact tracks_objectLiteral hg (by simp [h])
  · next h =>
    refine tracks_advance (c := .fits) (by simp [h]) ?_ fun _ _ => rfl
    refine (hg.expression false).next (c := .fits) fun inner => ?_
    exact tracks_expect (by decide) (fun _ => (blind_pure _).tracks) fun _ _ _ => rfl
  · next h =>
    refine tracks_advance (c := .fits) (by simp [h]) ?_ fun _ _ => rfl
    refine (blind_warnOfKeyword _ _).next fun _ => ?_
    exact (blind_noteUse _).next fun _ => (blind_makeNode _ _).tracks
  · next h => exact tracks_leaf (by simp [h]) fun _ _ => rfl
  · next h => exact tracks_leaf (by simp [h]) fun _ _ => rfl
  · next h => exact tracks_leaf (by simp [h]) fun _ _ => rfl
  · next h =>
    refine tracks_advance (c := .fits) (by simp [h]) ?_ fun _ _ => rfl
    split
    · exact (blind_modifyScope _).next fun _ => (blind_makeNode _ _).tracks
    · exact (blind_makeNode _ _).tracks
  · exact tracks_fail
  · exact tracks_unexpected

theorem tracks_arguments (hg : Mates places g g') (ht : t.tag ≠ .endOfInput) :
    Tracks places (.facing t) b g.arguments g'.arguments .behind .fits := by
  refine tracks_advance (c := .fits) ht ?_ fun _ _ => rfl
  have hclose : ∀ (x : Stance) (b : Outlook) (args : List Tree), Tracks places x b
      (expect .rightParen .parenAfterArguments >>= fun _ => pure args)
      (expect .rightParen .parenAfterArguments >>= fun _ => pure args) .behind .fits :=
    fun _ _ _ => tracks_expect (by decide) (fun _ => (blind_pure _).tracks) fun _ _ _ => rfl
  refine tracks_ifCheck (by decide) (fun t ht => hclose _ _ []) ?_
  exact (tracks_itemsBetweenCommas hg (hg.assignment false)).next fun args => hclose _ .fits args

theorem tracks_propertyName : Consumes places propertyName propertyName := by
  refine tracks_look (fun s => ?_) fun _ _ _ _ _ => rfl
  dsimp only
  split
  · next h => exact tracks_advance (by simp [h]) (blind_pure _).tracks fun _ _ => rfl
  · next h =>
    refine tracks_advance (c := .fits) (by simp [h]) ?_ fun _ _ => rfl
    exact (blind_warn (by simp) _).next fun _ => (blind_pure _).tracks
  · exact tracks_fail

theorem tracks_access (hg : Mates places g g') (allowCall : Bool) (object : Tree) :
    Tracks places .behind .fits (g.access allowCall object) (g'.access allowCall object)
      .behind .fits := by
  refine tracks_glance (q := pure (.done object)) (fun s => ?_) (fun s v hv => ?_)
    fun _ _ _ _ _ => rfl
  · dsimp only
    split
    · next h =>
      refine .inl (tracks_advance (c := .fits) (by simp [h]) ?_ fun _ _ => rfl)
      refine tracks_propertyName.next (c := .fits) fun name => ?_
      refine (blind_makeNode _ _).next fun name => ?_
      exact (blind_makeNode _ _).next fun _ => (blind_pure _).tracks
    · next h =>
      refine .inl (tracks_advance (c := .fits) (by simp [h]) ?_ fun _ _ => rfl)
      refine (hg.expression false).next (c := .fits) fun index => ?_
      refine tracks_expect (c := .fits) (by decide) (fun _ => ?_) fun _ _ _ => rfl
      exact (blind_makeNode _ _).next fun _ => (blind_pure _).tracks
    · next h =>
      split
      · refine .inl ((tracks_arguments hg (by simp [h])).bind fun args => ?_)
        split
        · refine blind_needActivation.next fun _ => ?_
          exact (blind_makeNode _ _).next fun _ => (blind_pure _).tracks
        · exact (blind_makeNode _ _).next fun _ => (blind_pure _).tracks
      · exact .inr ⟨(blind_pure _).tracks, rfl⟩
    · exact .inr ⟨(blind_pure _).tracks, rfl⟩
  · simp only [State.seeing, hv]

theorem tracks_memberOf (hg : Mates places g g') (allowCall : Bool) :
    Consumes places (g.memberOf allowCall) (g'.memberOf allowCall) := by
  have hloop : ∀ object, Tracks places .behind .fits (g.repeatTurns (g.access allowCall) object)
      (g'.repeatTurns (g'.access allowCall) object) .behind .fits :=
    tracks_iterate (tracks_access hg allowCall) (fun _ h => h) (fun _ h => h)
      (Nat.succ_le_succ hg.bound)
  refine tracks_look (fun s => ?_) fun _ _ _ _ _ => rfl
  dsimp only
  split
  · next h =>
    have hnew : ∀ (callee : Tree) (line : Nat) (args : List Tree), Tracks places .behind .fits
        (makeNode (.call .kwNew callee.data line) (callee :: args) >>= fun object =>
          g.repeatTurns (g.access allowCall) object)
        (makeNode (.call .kwNew callee.data line) (callee :: args) >>= fun object =>
          g'.repeatTurns (g'.access allowCall) object) .behind .fits :=
      fun _ _ _ => (blind_makeNode _ _).next hloop
    refine tracks_advance (c := .fits) (by simp [beq_iff_eq.mp h]) ?_ fun _ _ => rfl
    refine (hg.member false).next (c := .fits) fun callee => ?_
    refine tracks_ifCheck (by decide) (fun t ht => ?_) (hnew callee _ [])
    exact (tracks_arguments hg (by simp [ht])).bind fun args => hnew callee _ args
  split
  · next h =>
    exact (tracks_functionOf hg .expression (by simp [beq_iff_eq.mp h])).bind hloop
  · exact (tracks_primary hg).next hloop

/-! ## Operators -/

theorem isStep_tag (h : isStep t = true) : t.tag = .increment ∨ t.tag = .decrement := by
  simpa [isStep] using h

theorem tracks_steppedOperand (hg : Mates places g g') :
    Consumes places g.steppedOperand g'.steppedOperand := by
  refine (tracks_memberOf hg true).next (c := .fits) fun operand => ?_
  refine tracks_glance (q := pure operand) (fun s => ?_) (fun s v hv => ?_) fun _ _ _ _ _ => rfl
  · dsimp only
    split
    · next h =>
      have hend : s.current.tag ≠ .endOfInput := by
        rcases isStep_tag (Bool.and_eq_true_iff.mp h).1 with h | h <;> simp [h]
      split
      · exact .inl (tracks_advance hend (blind_makeNode _ _).tracks fun _ _ => rfl)
      · exact .inl tracks_fail
    · exact .inr ⟨(blind_pure _).tracks, rfl⟩
  · simp [State.seeing, isStep, hv]

theorem unaryOperator_tag {operator : Tag} (h : unaryOperator? t = some operator) :
    t.tag ≠ .endOfInput := by
  intro htag
  simp [unaryOperator?, htag] at h

theorem tracks_unaryOf (hg : Mates places g g') : Consumes places g.unaryOf g'.unaryOf := by
  refine tracks_look (fun s => ?_) fun _ _ _ _ _ => rfl
  dsimp only
  split
  · next operator h =>
    refine tracks_advance (c := .fits) (unaryOperator_tag h) ?_ fun _ _ => rfl
    exact hg.unary.next fun operand => (blind_makeNode _ _).tracks
  · split
    · next h =>
      have hend : s.current.tag ≠ .endOfInput := by
        rcases isStep_tag h with h | h <;> simp [h]
      refine tracks_advance (c := .fits) hend ?_ fun _ _ => rfl
      refine (tracks_memberOf hg true).next (c := .fits) fun operand => ?_
      split
      · exact (blind_makeNode _ _).tracks
      · exact tracks_failAt
    · exact (tracks_steppedOperand hg).here

theorem binaryOperator_none {noIn : Bool} (h : t.tag = .endOfInput ∨ t.tag = .semicolon) :
    binaryOperator? noIn t = none := by
  have hends : Tag.binaryPrecedence? .endOfInput = none ∧ Tag.binaryPrecedence? .semicolon = none :=
    ⟨rfl, rfl⟩
  rcases h with h | h <;> simp [binaryOperator?, h, hends]

theorem tracks_binaryTurn {noIn : Bool} {level : Nat} {operand operand' : Reading Tree}
    (ho : Consumes places operand operand') (left : Tree) :
    Tracks places .behind .fits (binaryTurn noIn level operand left)
      (binaryTurn noIn level operand' left) .behind .fits := by
  refine tracks_glance (q := pure (.done left)) (fun s => ?_) (fun s v hv => ?_)
    fun _ _ _ _ _ => rfl
  · split
    · next tag datum h =>
      have hend : s.current.tag ≠ .endOfInput := fun hend => by
        rw [binaryOperator_none (.inl hend)] at h
        cases h
      split
      · refine .inl (tracks_advance (c := .fits) hend ?_ fun _ _ => rfl)
        refine ho.next (c := .fits) fun right => ?_
        exact (blind_makeNode _ _).next fun _ => (blind_pure _).tracks
      · exact .inr ⟨(blind_pure _).tracks, rfl⟩
    · exact .inr ⟨(blind_pure _).tracks, rfl⟩
  · have hnone : binaryOperator? noIn v.current = none := binaryOperator_none (.inr hv)
    simp only [State.seeing, hnone]

theorem tracks_binaryOf (hg : Mates places g g') (noIn : Bool) (levels : Nat) :
    Consumes places (g.binaryOf noIn levels) (g'.binaryOf noIn levels) := by
  induction levels with
  | zero => exact tracks_unaryOf hg
  | succ levels ih =>
    exact ih.next (tracks_iterate (tracks_binaryTurn ih) (fun _ h => h) (fun _ h => h)
      (Nat.succ_le_succ hg.bound))

theorem tracks_conditionalOf (hg : Mates places g g') (noIn : Bool) :
    Consumes places (g.conditionalOf noIn) (g'.conditionalOf noIn) := by
  refine (tracks_binaryOf hg noIn binaryLevels).next (c := .fits) fun condition => ?_
  refine tracks_ifCheck (by decide) (fun t ht => ?_) (blind_pure _).tracks
  refine tracks_advance (c := .fits) (by simp [ht]) ?_ fun _ _ => rfl
  refine (hg.assignment false).next (c := .fits) fun yes => ?_
  refine tracks_expect (c := .fits) (by decide) (fun _ => ?_) fun _ _ _ => rfl
  exact (hg.assignment noIn).next fun no => (blind_makeNode _ _).tracks

theorem tracks_assignmentOf (hg : Mates places g g') (noIn : Bool) :
    Consumes places (g.assignmentOf noIn) (g'.assignmentOf noIn) := by
  refine (tracks_conditionalOf hg noIn).next (c := .fits) fun target => ?_
  refine tracks_ifCheck (by decide) (fun t ht => ?_) (blind_pure _).tracks
  split
  · refine tracks_advance (c := .fits) (by simp [ht]) ?_ fun _ _ => rfl
    exact (hg.assignment noIn).next fun value => (blind_makeNode _ _).tracks
  · exact tracks_fail

theorem tracks_sequenceTurn {assignment assignment' : Reading Tree}
    (ha : Consumes places assignment assignment') (left : Tree) :
    Tracks places .behind .fits (sequenceTurn assignment left) (sequenceTurn assignment' left)
      .behind .fits := by
  refine tracks_ifCheck (by decide) (fun t ht => ?_) (blind_pure _).tracks
  refine tracks_advance (c := .fits) (by simp [ht]) ?_ fun _ _ => rfl
  refine ha.next (c := .fits) fun right => ?_
  exact (blind_makeNode _ _).next fun _ => (blind_pure _).tracks

theorem tracks_expressionOf (hg : Mates places g g') (noIn : Bool) :
    Consumes places (g.expressionOf noIn) (g'.expressionOf noIn) :=
  (tracks_assignmentOf hg noIn).next (tracks_iterate
    (tracks_sequenceTurn (tracks_assignmentOf hg noIn)) (fun _ h => h) (fun _ h => h)
    (Nat.succ_le_succ hg.bound))

end
end ScriptPress.Grammar
