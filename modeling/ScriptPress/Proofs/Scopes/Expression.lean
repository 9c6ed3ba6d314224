import ScriptPress.Proofs.Scopes.Course

/-! # Names in expressions

A name that stands for itself is a use; the names of properties and keys are none. A function lists
the names in its body, and the code around it notes none of them.
-/
namespace ScriptPress.Grammar

/-- Readers for nested parts that note the names in what they read. -/
structure NotesNames (g : Grammar) : Prop where
  statement : ∀ top, Notes .part (g.statement top)
  assignment : ∀ noIn, Notes .part (g.assignment noIn)
  expression : ∀ noIn, Notes .part (g.expression noIn)
  unary : Notes .part g.unary
  member : ∀ allowCall, Notes .part (g.member allowCall)

variable {g : Grammar} {α β : Type} {n : Names} {ps : List Spot} {standing : Standing} {s : State}

/-! ## Lists -/

theorem itemsBetweenCommas_notes {item : Reading Tree} (hitem : Notes standing item) :
    NotesAll standing (g.itemsBetweenCommas item) := by
  intro s hs
  refine ensures_iterate (I := fun ts s' => Noted s.names s'.names (ts.map (Spot.mk standing)))
    (fun items s₁ h₁ => ?_) _ (.start hs)
  refine hitem.next h₁ fun t s₂ h₂ => ?_
  rw [← List.map_singleton (f := Spot.mk standing), ← List.map_append] at h₂
  refine (preserves_accept .comma).noted h₂ fun b s₃ h₃ => ?_
  split
  · exact ensures_pure h₃
  · exact ensures_pure h₃

/-- Items behind the first ones. -/
theorem itemsUntil_notes {ends : Token → Bool} {item : Reading Tree} (hitem : Notes standing item)
    {first : List Tree} (h : Noted n s.names (first.map (Spot.mk standing))) :
    Ensures False (g.itemsUntil ends item first) s fun ts s' =>
      Noted n s'.names (ts.map (Spot.mk standing)) := by
  refine ensures_iterate (I := fun ts s' => Noted n s'.names (ts.map (Spot.mk standing)))
    (fun items s₁ h₁ => ?_) _ h
  refine ensures_get ?_
  split
  · exact ensures_pure h₁
  · refine hitem.next h₁ fun t s₂ h₂ => ensures_pure ?_
    rw [← List.map_singleton (f := Spot.mk standing), ← List.map_append] at h₂
    exact h₂

/-! ## Literals -/

theorem arrayElement_notes (hg : NotesNames g) {elements : List Tree}
    (h : Noted n s.names (elements.map (Spot.mk .part))) :
    Ensures False (g.arrayElement elements) s
      (Turn.Leads (fun ts s' => Noted n s'.names (ts.map (Spot.mk .part)))
        fun ts s' => Noted n s'.names (ts.map (Spot.mk .part))) := by
  have hsnoc : ∀ {t : Tree} {s' : State}, Noted n s'.names (elements.map (Spot.mk .part) ++ [⟨.part, t⟩]) →
      Noted n s'.names ((elements ++ [t]).map (Spot.mk .part)) := by
    intro t s' h'
    rwa [List.map_append, List.map_singleton]
  refine ensures_ifCheck (fun _ => ensures_pure h) fun _ => ?_
  refine ensures_ifCheck (fun _ => ?_) fun _ => ?_
  · refine preserves_advance.noted h fun t s₁ h₁ => ?_
    have hhole : Notes .part (makeNode (.leaf .empty t.line) []) := fun s hs =>
      makeNode_parts (.start hs) rfl
    exact hhole.next h₁ fun t s₂ h₂ => ensures_pure (hsnoc h₂)
  refine (hg.assignment false).next h fun t s₁ h₁ => ?_
  have h₁ := hsnoc h₁
  refine ensures_ifCheck (fun _ => ?_) fun _ => ?_
  · refine preserves_advance.noted h₁ fun t s₂ h₂ => ?_
    refine ensures_ifCheck (fun _ => ?_) fun _ => ensures_pure h₂
    exact (preserves_warn _ _).noted h₂ fun _ s₃ h₃ => ensures_pure h₃
  · exact ensures_ifCheck (fun _ => ensures_pure h₁) fun _ => ensures_fail

theorem arrayLiteral_notes (hg : NotesNames g) : Notes .part g.arrayLiteral := by
  intro s hs
  refine preserves_advance.noted (.start hs) fun t s₁ h₁ => ?_
  refine (ensures_iterate (fun _ _ => arrayElement_notes hg) _ h₁).bind fun elements s₂ h₂ => ?_
  refine (preserves_expect _ _).noted h₂ fun _ s₃ h₃ => ?_
  exact makeNode_parts h₃ rfl

theorem propertyKey_notes : Notes .named propertyKey := by
  intro s hs
  have hstart : Noted s.names s.names [] := .start hs
  refine ensures_get ?_
  dsimp only
  split
  · exact preserves_advance.noted hstart fun t s₁ h₁ =>
      (notes_name _ _ (Or.inl rfl)).last h₁
  · refine preserves_advance.noted hstart fun t s₁ h₁ => ?_
    exact (preserves_warn _ _).noted h₁ fun _ s₂ h₂ => (notes_name _ _ (Or.inl rfl)).last h₂
  · exact preserves_advance.noted hstart fun t s₁ h₁ => makeNode_parts h₁ rfl
  · exact preserves_advance.noted hstart fun t s₁ h₁ => makeNode_parts h₁ rfl
  · exact ensures_fail

/-- The parts of an object: keys and values in turn. -/
def PairsNoted (n n' : Names) (parts : List Tree) : Prop :=
  Noted n n' (Tree.placed .objectLit 0 parts) ∧ parts.length % 2 = 0

theorem objectProperty_notes (hg : NotesNames g) {parts : List Tree}
    (h : PairsNoted n s.names parts) :
    Ensures False (g.objectProperty parts) s (Turn.Leads (fun ts s' => PairsNoted n s'.names ts)
      fun ts s' => PairsNoted n s'.names ts) := by
  refine ensures_ifCheck (fun _ => ensures_pure h) fun _ => ?_
  obtain ⟨h, heven⟩ := h
  refine propertyKey_notes.next h fun key s₁ h₁ => ?_
  refine (preserves_expect _ _).noted h₁ fun _ s₂ h₂ => ?_
  refine (hg.assignment false).next h₂ fun value s₃ h₃ => ?_
  have hparts : PairsNoted n s₃.names (parts ++ [key, value]) := by
    refine ⟨?_, by simp [heven]⟩
    have hodd : (parts.length + 1) % 2 = 1 := by omega
    rw [Tree.placed_append]
    simpa [Tree.placed, Tag.standing, heven, hodd] using h₃
  refine ensures_ifCheck (fun _ => ?_) fun _ => ?_
  · refine preserves_advance.noted hparts.1 fun t s₄ h₄ => ?_
    refine ensures_ifCheck (fun _ => ?_) fun _ => ensures_pure ⟨h₄, hparts.2⟩
    exact (preserves_warn _ _).noted h₄ fun _ s₅ h₅ => ensures_pure ⟨h₅, hparts.2⟩
  · exact ensures_ifCheck (fun _ => ensures_pure hparts) fun _ => ensures_fail

theorem objectLiteral_notes (hg : NotesNames g) : Notes .part g.objectLiteral := by
  intro s hs
  refine preserves_advance.noted (.start hs) fun t s₁ h₁ => ?_
  refine (ensures_iterate (fun _ _ => objectProperty_notes hg) _
    (⟨h₁, rfl⟩ : PairsNoted s.names s₁.names [])).bind fun parts s₂ h₂ => ?_
  refine (preserves_expect _ _).noted h₂.1 fun _ s₃ h₃ => ?_
  exact makeNode_notes h₃ rfl

/-! ## Operands -/

theorem arguments_notes (hg : NotesNames g) : NotesAll .part g.arguments := by
  intro s hs
  refine preserves_advance.noted (.start hs) fun t s₁ h₁ => ?_
  have hclose : ∀ (args : List Tree) (s' : State), Noted s.names s'.names (args.map (Spot.mk .part)) →
      Ensures False (expect .rightParen .parenAfterArguments >>= fun _ => pure args) s'
        fun args s' => Noted s.names s'.names (args.map (Spot.mk .part)) := fun args s' h' =>
    (preserves_expect _ _).noted h' fun _ s₃ h₃ => ensures_pure h₃
  refine ensures_ifCheck (fun _ => hclose [] s₁ h₁) fun _ => ?_
  exact (itemsBetweenCommas_notes (hg.assignment false)).next h₁ fun args s₂ h₂ => hclose args s₂ h₂

theorem preserves_needActivation : Preserves State.names needActivation :=
  preserves_modify fun _ => rfl

/-- An access leads from an operand to an operand. -/
theorem access_notes (hg : NotesNames g) {allowCall : Bool} {object : Tree}
    (h : Noted n s.names [⟨.part, object⟩]) :
    Ensures False (g.access allowCall object) s
      (Turn.Leads (fun t s' => Noted n s'.names [⟨.part, t⟩])
        fun t s' => Noted n s'.names [⟨.part, t⟩]) := by
  refine ensures_get ?_
  dsimp only
  split
  · refine preserves_advance.noted h fun t s₁ h₁ => ?_
    refine preserves_propertyName.noted h₁ fun name s₂ h₂ => ?_
    refine (notes_name name t.line (Or.inl rfl)).next h₂ fun name s₃ h₃ => ?_
    exact (makeNode_notes h₃ rfl).bind
      fun t s₄ h₄ => ensures_pure h₄
  · refine preserves_advance.noted h fun t s₁ h₁ => ?_
    refine (hg.expression false).next h₁ fun index s₂ h₂ => ?_
    refine (preserves_expect _ _).noted h₂ fun _ s₃ h₃ => ?_
    exact (makeNode_parts h₃ rfl).bind fun t s₄ h₄ => ensures_pure h₄
  · split
    · refine (arguments_notes hg).next h fun args s₁ h₁ => ?_
      have hmake : ∀ s', Noted n s'.names ((object :: args).map (Spot.mk .part)) →
          Ensures False (makeNode (.call .call object.data s.current.line) (object :: args) >>=
            fun t => pure (Turn.again t)) s'
            (Turn.Leads (fun t s' => Noted n s'.names [⟨.part, t⟩])
              fun t s' => Noted n s'.names [⟨.part, t⟩]) := fun s' h' =>
        (makeNode_parts h' rfl).bind fun t s₄ h₄ => ensures_pure h₄
      split
      · exact preserves_needActivation.noted h₁ fun _ s₂ h₂ => hmake s₂ h₂
      · exact hmake s₁ h₁
    · exact ensures_pure h
  · exact ensures_pure h

/-! ## Blocks and functions -/

theorem blockAfterBrace_notes (hg : NotesNames g) (top : Bool) (line : Nat) (construct : String) :
    Notes .part (g.blockAfterBrace top line construct) := by
  intro s hs
  refine ensures_freshId' ?_
  have hopening : Noted s.names s.opening.names (([] : List Tree).map (Spot.mk .part)) := .start hs
  refine (itemsUntil_notes (hg.statement top) hopening).bind fun statements s₁ h₁ => ?_
  refine preserves_takeComments.noted h₁ fun comments s₂ h₂ => ?_
  refine (preserves_expect _ _).noted h₂ fun _ s₃ h₃ => ensures_pure ?_
  exact (h₃.parts _ (rfl : (Node.leaf .block line).tag.holdsParts = true)).withComments rfl comments

/-- What the node of a function says of the names in its body. -/
theorem listsNames_function {id : NodeId} {data : FunctionData} {line : Nat}
    {enclosing? : Option NodeId} {body : Tree} {inner : State}
    (h : Noted {} inner.names [⟨.part, body⟩]) :
    (Tree.node id (functionNode data line enclosing? inner.scope) [body]).ListsNames := by
  obtain ⟨hvars, hsorted, hmem⟩ := Names.listed
    (Tree.node id (functionNode data line enclosing? inner.scope) [body]).inside
  have hall := h.inside (t := .node id (functionNode data line enclosing? inner.scope) [body])
  rw [← hall] at hvars hsorted hmem
  have hvars : inner.scope.vars = _ := hvars
  refine ⟨?_, ⟨inner.scope.uses, ?_, hsorted, hmem⟩, fun _ => ⟨{ data with
    requiresActivation := inner.scope.requiresActivation
    checksThis := inner.scope.checksThis }, ?_, ?_⟩⟩
  · rw [Tree.declaredNames, ← hvars]
    cases enclosing? <;> rfl
  · cases enclosing? <;> rfl
  · cases enclosing? <;> rfl
  · rw [Tree.declaredNames, ← hvars]
    cases enclosing? <;> rfl

theorem functionOf_notes (hg : NotesNames g) (role : FunctionRole) :
    Notes .part (g.functionOf role) := by
  intro s hs
  refine preserves_advance.noted (.start hs) fun t s₁ h₁ => ?_
  refine (preserves_functionName role).noted h₁ fun name s₂ h₂ => ?_
  refine (preserves_expect _ _).noted h₂ fun _ s₃ h₃ => ?_
  refine preserves_parameters.noted h₃ fun params s₄ h₄ => ?_
  refine (preserves_expect _ _).noted h₄ fun _ s₅ h₅ => ?_
  refine (preserves_expect _ _).noted h₅ fun brace s₆ h₆ => ?_
  refine ensures_freshId' (ensures_get ?_)
  -- the body is read in a scope with no names
  have hbody : Ensures False (g.blockAfterBrace true brace.line "function")
      (s₆.opening.inside ⟨s₆.nextId⟩) fun body sb => Noted {} sb.names [⟨.part, body⟩] :=
    blockAfterBrace_notes hg true brace.line "function" _ .nil
  refine Ensures.bind (P := fun p s' => ∃ sb : State, Noted {} sb.names [⟨.part, p.1⟩]
    ∧ p.2 = sb.scope ∧ s' = s₆.opening.outside sb ⟨s₆.nextId⟩) ?_ ?_
  · refine ensures_get (ensures_set (hbody.bind fun body sb hb => ?_))
    exact ensures_get (ensures_modify (ensures_pure ⟨sb, hb, rfl, rfl⟩))
  · rintro ⟨body, inner⟩ s' ⟨sb, hb, rfl, rfl⟩
    have hnames : (s₆.opening.outside sb ⟨s₆.nextId⟩).names = s.names := h₆.along
    refine ensures_pure ?_
    rw [hnames]
    exact .function hs (listsNames_function hb) rfl (hb.settled _ (by simp))

/-! ## Operators -/

/-- What is read after a slash was read again, if it was one. -/
theorem rescanned_notes {c : Prop} [Decidable c] {f : PUnit → Reading Tree} (hs : s.names.Sorted)
    (hf : ∀ s', Noted s.names s'.names [] →
      Ensures False (f ⟨⟩) s' fun t s'' => Noted s.names s''.names [⟨.part, t⟩]) :
    Ensures False (if c then rescan >>= f else f ⟨⟩) s
      fun t s' => Noted s.names s'.names [⟨.part, t⟩] := by
  split
  · exact preserves_rescan.noted (.start hs) fun _ s₁ h₁ => hf s₁ h₁
  · exact hf s (.start hs)

theorem primary_notes (hg : NotesNames g) : Notes .part g.primary := by
  intro s hs
  refine ensures_get (rescanned_notes hs fun s₀ h₀ => ?_)
  refine ensures_get ?_
  dsimp only
  split
  · exact (arrayLiteral_notes hg).last h₀
  · exact (objectLiteral_notes hg).last h₀
  · refine preserves_advance.noted h₀ fun t s₁ h₁ => ?_
    refine (hg.expression false).next h₁ fun inner s₂ h₂ => ?_
    exact (preserves_expect _ _).noted h₂ fun _ s₃ h₃ => ensures_pure h₃
  · refine preserves_advance.noted h₀ fun t s₁ h₁ => ?_
    refine (preserves_warnOfKeyword _ _).noted h₁ fun _ s₂ h₂ => ?_
    refine ensures_modify (ensures_freshId' (ensures_pure ?_))
    exact h₂.append (.use h₂.sorted' _ _ _)
  · exact preserves_advance.noted h₀ fun t s₁ h₁ => makeNode_parts h₁ rfl
  · exact preserves_advance.noted h₀ fun t s₁ h₁ => makeNode_parts h₁ rfl
  · exact preserves_advance.noted h₀ fun t s₁ h₁ => makeNode_parts h₁ rfl
  · refine preserves_advance.noted h₀ fun t s₁ h₁ => ?_
    split
    · exact ensures_modify (makeNode_parts (n := s.names) h₁ rfl)
    · exact makeNode_parts h₁ rfl
  · exact ensures_fail
  · exact ensures_unexpected

theorem memberOf_notes (hg : NotesNames g) (allowCall : Bool) :
    Notes .part (g.memberOf allowCall) := by
  intro s hs
  have hstart : Noted s.names s.names [] := .start hs
  have htail : ∀ (object : Tree) (s' : State), Noted s.names s'.names [⟨.part, object⟩] →
      Ensures False (g.repeatTurns (g.access allowCall) object) s'
        fun t s'' => Noted s.names s''.names [⟨.part, t⟩] := fun object s' h =>
    ensures_iterate (I := fun t s'' => Noted s.names s''.names [⟨.part, t⟩])
      (fun _ _ h' => access_notes hg h') _ h
  refine ensures_get ?_
  dsimp only
  split
  · refine preserves_advance.noted hstart fun t s₁ h₁ => ?_
    refine (hg.member false).next h₁ fun callee s₂ h₂ => ?_
    have hnew : ∀ (args : List Tree) (s' : State),
        Noted s.names s'.names ((callee :: args).map (Spot.mk .part)) →
        Ensures False (makeNode (.call .kwNew callee.data t.line) (callee :: args) >>=
          g.repeatTurns (g.access allowCall)) s'
            fun t s'' => Noted s.names s''.names [⟨.part, t⟩] :=
      fun args s' h' => (makeNode_parts h' rfl).bind htail
    refine ensures_ifCheck (fun _ => ?_) fun _ => hnew [] s₂ h₂
    exact (arguments_notes hg).next h₂ fun args s₃ h₃ => hnew args s₃ h₃
  split
  · exact (functionOf_notes hg .expression).next hstart fun object s₁ h₁ => htail object s₁ h₁
  · exact (primary_notes hg).next hstart fun object s₁ h₁ => htail object s₁ h₁

theorem holdsParts_step {t : Token} (h : isStep t = true) : t.tag.holdsParts = true := by
  have htag : t.tag = .increment ∨ t.tag = .decrement := by simpa [isStep] using h
  rcases htag with htag | htag <;> rw [htag] <;> rfl

theorem makeStep_notes {t : Token} (ht : isStep t = true) {operand : Tree} (after : Bool)
    (h : Noted n s.names [⟨.part, operand⟩]) :
    Ensures False (makeNode (.step t.tag after t.line) [operand]) s
      fun t s' => Noted n s'.names [⟨.part, t⟩] :=
  makeNode_parts h (holdsParts_step ht)

theorem steppedOperand_notes (hg : NotesNames g) : Notes .part g.steppedOperand := by
  intro s hs
  refine (memberOf_notes hg true).next (.start hs) fun operand s₁ h₁ => ?_
  refine ensures_get ?_
  dsimp only
  split
  · next hstep =>
    split
    · have hadvance : Ensures False advance s₁ fun t s₂ => t = s₁.current ∧ s₂.names = s₁.names :=
        advance_current.and (preserves_advance s₁)
      refine hadvance.bind fun t s₂ ⟨ht, hs₂⟩ => ?_
      subst ht
      exact makeStep_notes (Bool.and_eq_true_iff.mp hstep).1 true (hs₂.symm ▸ h₁)
    · exact ensures_fail
  · exact ensures_pure h₁

theorem unaryOf_notes (hg : NotesNames g) : Notes .part g.unaryOf := by
  intro s hs
  refine ensures_get ?_
  dsimp only
  split
  · refine preserves_advance.noted (.start hs) fun t s₁ h₁ => ?_
    exact hg.unary.next h₁ fun operand s₂ h₂ => makeNode_parts h₂ rfl
  split
  · next hstep =>
    refine preserves_advance.noted (.start hs) fun t s₁ h₁ => ?_
    refine (memberOf_notes hg true).next h₁ fun operand s₂ h₂ => ?_
    split
    · exact makeStep_notes hstep false h₂
    · exact ensures_failAt
  · exact steppedOperand_notes hg s hs

theorem holdsParts_binary {noIn : Bool} {t : Token} {tag : Tag} {datum : Option Tag}
    (h : binaryOperator? noIn t = some (tag, datum)) : tag.holdsParts = true := by
  rw [binaryOperator?] at h
  split at h
  · cases h
    rfl
  · split at h
    · cases h
    · cases h
      rfl
  · next htag => cases h; rw [htag]; rfl
  · next htag => cases h; rw [htag]; rfl
  · next htag => cases h; rw [htag]; rfl
  · split at h
    · next hlevel =>
      cases h
      cases htag : t.tag <;> simp_all [Tag.binaryPrecedence?, Tag.holdsParts]
    · cases h

theorem binaryTurn_notes {noIn : Bool} {level : Nat} {operand : Reading Tree}
    (hoperand : Notes .part operand) {left : Tree} (h : Noted n s.names [⟨.part, left⟩]) :
    Ensures False (binaryTurn noIn level operand left) s
      (Turn.Leads (fun t s' => Noted n s'.names [⟨.part, t⟩])
        fun t s' => Noted n s'.names [⟨.part, t⟩]) := by
  refine ensures_get ?_
  split
  · next tag datum hop =>
    split
    · refine preserves_advance.noted h fun t s₁ h₁ => ?_
      refine hoperand.next h₁ fun right s₂ h₂ => ?_
      have hmake : Ensures False (makeNode (.binary tag datum left.data right.data t.line)
          [left, right]) s₂ fun t s' => Noted n s'.names [⟨.part, t⟩] :=
        makeNode_parts h₂ (holdsParts_binary hop)
      exact hmake.bind fun t s₃ h₃ => ensures_pure h₃
    · exact ensures_pure h
  · exact ensures_pure h

theorem binaryOf_notes (hg : NotesNames g) (noIn : Bool) (levels : Nat) :
    Notes .part (g.binaryOf noIn levels) := by
  induction levels with
  | zero => exact unaryOf_notes hg
  | succ levels ih =>
    intro s hs
    refine ih.next (.start hs) fun left s₁ h₁ => ?_
    exact ensures_iterate (I := fun t s' => Noted s.names s'.names [⟨.part, t⟩])
      (fun _ _ h => binaryTurn_notes ih h) _ h₁

theorem conditionalOf_notes (hg : NotesNames g) (noIn : Bool) :
    Notes .part (g.conditionalOf noIn) := by
  intro s hs
  refine (binaryOf_notes hg noIn _).next (.start hs) fun condition s₁ h₁ => ?_
  refine ensures_ifCheck (fun _ => ?_) fun _ => ensures_pure h₁
  refine preserves_advance.noted h₁ fun t s₂ h₂ => ?_
  refine (hg.assignment false).next h₂ fun yes s₃ h₃ => ?_
  refine (preserves_expect _ _).noted h₃ fun _ s₄ h₄ => ?_
  exact (hg.assignment noIn).next h₄ fun no s₅ h₅ =>
    makeNode_parts h₅ rfl

theorem assignmentOf_notes (hg : NotesNames g) (noIn : Bool) :
    Notes .part (g.assignmentOf noIn) := by
  intro s hs
  refine (conditionalOf_notes hg noIn).next (.start hs) fun target s₁ h₁ => ?_
  refine ensures_ifCheck (fun _ => ?_) fun _ => ensures_pure h₁
  split
  · refine preserves_advance.noted h₁ fun t s₂ h₂ => ?_
    exact (hg.assignment noIn).next h₂ fun value s₃ h₃ =>
      makeNode_parts h₃ rfl
  · exact ensures_fail

theorem sequenceTurn_notes {assignment : Reading Tree} (ha : Notes .part assignment) {left : Tree}
    (h : Noted n s.names [⟨.part, left⟩]) :
    Ensures False (sequenceTurn assignment left) s
      (Turn.Leads (fun t s' => Noted n s'.names [⟨.part, t⟩])
        fun t s' => Noted n s'.names [⟨.part, t⟩]) := by
  refine ensures_ifCheck (fun _ => ?_) fun _ => ensures_pure h
  refine preserves_advance.noted h fun t s₁ h₁ => ?_
  refine ha.next h₁ fun right s₂ h₂ => ?_
  exact (makeNode_parts h₂ rfl).bind fun t s₃ h₃ => ensures_pure h₃

theorem expressionOf_notes (hg : NotesNames g) (noIn : Bool) :
    Notes .part (g.expressionOf noIn) := by
  intro s hs
  have ha := assignmentOf_notes hg noIn
  refine ha.next (.start hs) fun first s₁ h₁ => ?_
  exact ensures_iterate (I := fun t s' => Noted s.names s'.names [⟨.part, t⟩])
    (fun _ _ h => sequenceTurn_notes ha h) _ h₁

end ScriptPress.Grammar
