import ScriptPress.Proofs.Scopes.Expression

/-! # Names in statements

A variable statement declares names. A name before a colon was noted as a use while it was read, and
is taken back when it turns out to be a label, unless it was in use before.
-/
namespace ScriptPress.Grammar

variable {g : Grammar} {n : Names} {s : State}

theorem map_snoc {standing : Standing} (ts : List Tree) (t : Tree) :
    ts.map (Spot.mk standing) ++ [⟨standing, t⟩] = (ts ++ [t]).map (Spot.mk standing) := by
  rw [List.map_append, List.map_singleton]

/-! ## Parts -/

theorem condition_notes (hg : NotesNames g) (keyword : Tag) : Notes .part (g.condition keyword) := by
  intro s hs
  refine (preserves_expect _ _).noted (.start hs) fun _ s₁ h₁ => ?_
  refine (hg.expression false).next h₁ fun test s₂ h₂ => ?_
  have hclose : ∀ s' : State, Noted s.names s'.names [⟨.part, test⟩] →
      Ensures False (expect .rightParen .parenAfterCondition >>= fun _ => pure test) s'
        fun t s'' => Noted s.names s''.names [⟨.part, t⟩] := fun s' h' =>
    (preserves_expect _ _).noted h' fun _ s'' h'' => ensures_pure h''
  split
  · exact (preserves_warn _ _).noted h₂ fun _ s₃ h₃ => hclose s₃ h₃
  · exact hclose s₂ h₂

theorem block_notes (hg : NotesNames g) (construct : String) :
    Notes .part (g.block construct) := fun _ hs =>
  (preserves_expect _ _).noted (.start hs) fun brace _ h₁ =>
    (blockAfterBrace_notes hg false brace.line construct).last h₁

/-! ## Variables -/

theorem declare_notes (name : String) (line : Nat) : Ensures False (declare name line) s
    fun _ s' => s'.names = { s.names with vars := appendName s.names.vars name } := by
  have hnew : appendName s.names.vars name
      = if s.scope.vars.contains name then s.scope.vars else s.scope.vars ++ [name] := rfl
  refine ensures_get ?_
  rw [hnew]
  split
  · exact preserves_warn _ _ s
  · exact ensures_of_ok rfl rfl

theorem declaration_notes (hg : NotesNames g) (noIn : Bool) :
    Notes .declared (g.declaration noIn) := by
  intro s hs
  refine (preserves_declaredName _).noted (.start hs) fun name s₁ h₁ => ?_
  refine (declare_notes name.1 name.2).bind fun _ s₂ h₂ => ?_
  refine ensures_freshId' (ensures_get ?_)
  have hstart : Noted { s.names with vars := appendName s.names.vars name.1 } s₂.opening.names
      (([] : List Tree).map (Spot.mk .part)) := by
    have hs₁ : s₁.names = s.names := h₁.along
    rw [show s₂.opening.names = s₂.names from rfl, h₂, hs₁]
    exact .start hs
  dsimp only
  split
  · refine preserves_advance.noted hstart fun t s₃ h₃ => ?_
    exact (hg.assignment noIn).next h₃ fun value s₄ h₄ => ensures_pure (.declare hs _ _ _ h₄)
  · exact ensures_pure (.declare hs _ _ _ hstart)

theorem declarations_notes (hg : NotesNames g) (noIn : Bool) :
    Notes .part (g.declarations noIn) := by
  intro s hs
  refine preserves_advance.noted (.start hs) fun t s₁ h₁ => ?_
  refine (itemsBetweenCommas_notes (declaration_notes hg noIn)).next h₁ fun names s₂ h₂ => ?_
  have hplaced : Tree.placed .kwVar 0 names = names.map (Spot.mk .declared) :=
    Tree.placed_uniform (fun _ _ => rfl) names
  exact makeNode_notes (hplaced.symm ▸ h₂) rfl

/-! ## Plain statements -/

theorem ifStatement_notes (hg : NotesNames g) : Notes .part g.ifStatement := by
  intro s hs
  refine preserves_advance.noted (.start hs) fun opening s₁ h₁ => ?_
  refine (condition_notes hg .kwIf).next h₁ fun test s₂ h₂ => ?_
  refine (hg.statement false).next h₂ fun yes s₃ h₃ => ?_
  have hmake : ∀ (no : List Tree) (s' : State),
      Noted s.names s'.names ((test :: yes :: no).map (Spot.mk .part)) →
      Ensures False (makeNode (.leaf .kwIf opening.line) (test :: yes :: no)) s'
        fun t s'' => Noted s.names s''.names [⟨.part, t⟩] := fun no s' h' => makeNode_parts h' rfl
  refine (preserves_accept .kwElse).noted h₃ fun b s₄ h₄ => ?_
  split
  · exact (hg.statement false).next h₄ fun no s₅ h₅ => hmake [no] s₅ h₅
  · exact hmake [] s₄ h₄

theorem returnStatement_notes (hg : NotesNames g) : Notes .part g.returnStatement := by
  intro s hs
  have hafter : Ensures False (do
      let opening ← advance
      let value ←
        if endsStatement (← get).current then pure [] else pure [← g.expression false]
      endStatement
      makeNode (.leaf .kwReturn opening.line) value) s fun t s' =>
        Noted s.names s'.names [⟨.part, t⟩] := by
    refine preserves_advance.noted (.start hs) fun opening s₁ h₁ => ?_
    have hmake : ∀ (value : List Tree) (s' : State),
        Noted s.names s'.names (value.map (Spot.mk .part)) →
        Ensures False (endStatement >>= fun _ => makeNode (.leaf .kwReturn opening.line) value) s'
          fun t s'' => Noted s.names s''.names [⟨.part, t⟩] := fun value s' h' =>
      preserves_endStatement.noted h' fun _ s'' h'' => makeNode_parts h'' rfl
    refine ensures_get ?_
    split
    · exact hmake [] s₁ h₁
    · exact (hg.expression false).next h₁ fun value s₂ h₂ => hmake [value] s₂ h₂
  refine ensures_get ?_
  split
  · exact ensures_fail
  · exact hafter

theorem withStatement_notes (hg : NotesNames g) : Notes .part g.withStatement := by
  intro s hs
  refine preserves_advance.noted (.start hs) fun opening s₁ h₁ => ?_
  refine (preserves_expect _ _).noted h₁ fun _ s₂ h₂ => ?_
  refine (hg.expression false).next h₂ fun object s₃ h₃ => ?_
  refine (preserves_expect _ _).noted h₃ fun _ s₄ h₄ => ?_
  refine preserves_needActivation.noted h₄ fun _ s₅ h₅ => ?_
  exact (hg.statement false).next h₅ fun body s₆ h₆ => makeNode_parts h₆ rfl

theorem throwStatement_notes (hg : NotesNames g) : Notes .part g.throwStatement := by
  intro s hs
  refine preserves_advance.noted (.start hs) fun opening s₁ h₁ => ?_
  refine ensures_get ?_
  split
  · exact ensures_fail
  refine (hg.expression false).next h₁ fun value s₂ h₂ => ?_
  exact preserves_endStatement.noted h₂ fun _ s₃ h₃ => makeNode_parts h₃ rfl

/-! ## Exceptions -/

theorem catchGuard_notes (hg : NotesNames g) : NotesAll .part g.catchGuard := by
  intro s hs
  refine ensures_ifCheck (fun _ => ?_) fun _ => ensures_pure (.start hs)
  refine ensures_get ?_
  dsimp only
  split
  · refine preserves_advance.noted (.start hs) fun t s₁ h₁ => ?_
    exact (hg.expression false).next h₁ fun guard s₂ h₂ => ensures_pure h₂
  · exact ensures_fail

/-- The name of a catch clause is no variable; what is behind it are parts. -/
theorem placed_catch (name : Tree) (rest : List Tree) :
    Tree.placed .kwCatch 0 (name :: rest) = ⟨.named, name⟩ :: rest.map (Spot.mk .part) := by
  have hpart : ∀ i, 1 ≤ i → Tag.kwCatch.standing i = .part := fun i hi => by
    rw [Tag.standing, if_neg (by simpa using Nat.ne_of_gt hi)]
  rw [Tree.placed, Tree.placed_uniform hpart]
  rfl

theorem catchClause_notes (hg : NotesNames g) : Notes .part g.catchClause := by
  intro s hs
  refine preserves_advance.noted (.start hs) fun opening s₁ h₁ => ?_
  refine (preserves_expect _ _).noted h₁ fun _ s₂ h₂ => ?_
  refine (preserves_declaredName _).noted h₂ fun name s₃ h₃ => ?_
  refine (notes_name name.1 name.2 (Or.inl rfl)).next h₃ fun nameNode s₄ h₄ => ?_
  refine (catchGuard_notes hg).next h₄ fun guard s₅ h₅ => ?_
  refine (preserves_expect _ _).noted h₅ fun _ s₆ h₆ => ?_
  refine (block_notes hg "catch").next h₆ fun handler s₇ h₇ => makeNode_notes ?_ rfl
  rw [List.append_assoc, map_snoc] at h₇
  exact (placed_catch nameNode (guard ++ [handler])).symm ▸ h₇

theorem finallyPart_notes (hg : NotesNames g) : NotesAll .part g.finallyPart := by
  intro s hs
  refine ensures_ifCheck (fun _ => ?_) fun _ => ensures_pure (.start hs)
  refine preserves_advance.noted (.start hs) fun t s₁ h₁ => ?_
  refine (block_notes hg "finally").next h₁ fun body s₂ h₂ => ?_
  have hmake : Ensures False (makeNode (.leaf .kwFinally t.line) [body]) s₂
      fun t s' => Noted s.names s'.names [⟨.part, t⟩] := makeNode_parts h₂ rfl
  exact hmake.bind fun t s₃ h₃ => ensures_pure h₃

theorem tryStatement_notes (hg : NotesNames g) : Notes .part g.tryStatement := by
  intro s hs
  refine preserves_advance.noted (.start hs) fun opening s₁ h₁ => ?_
  refine (block_notes hg "try").next h₁ fun body s₂ h₂ => ?_
  have hclauses : NotesAll .part (g.itemsUntil (·.tag != .kwCatch) g.catchClause []) :=
    fun _ hs => itemsUntil_notes (catchClause_notes hg) (.start hs)
  refine hclauses.next h₂ fun catches s₃ h₃ => ?_
  refine (finallyPart_notes hg).next h₃ fun finally? s₄ h₄ => ?_
  split
  · exact ensures_fail
  · refine makeNode_parts ?_ rfl
    simpa using h₄

/-! ## Loops -/

/-- What is read with a statement open for jumps. -/
theorem withTarget_ensures {α : Type} {id : NodeId} {isLoop : Bool} {pending : List NodeId}
    {body : Reading α} {P : α → Names → Prop}
    (hbody : Ensures False body (s.within id isLoop pending) fun a s' => P a s'.names) :
    Ensures False (withTarget id isLoop pending body) s fun a s' => P a s'.names :=
  ensures_get (ensures_set (hbody.bind fun _ _ h => ensures_modify (ensures_pure h)))

/-- The body of a loop. -/
theorem loopBody_notes (hg : NotesNames g) (id : NodeId) (pending : List NodeId) :
    Notes .part (withTarget id true pending (g.statement false)) := fun s hs =>
  withTarget_ensures (P := fun t n => Noted s.names n [⟨.part, t⟩]) (hg.statement false _ hs)

theorem whileStatement_notes (hg : NotesNames g) (pending : List NodeId) :
    Notes .part (g.whileStatement pending) := by
  intro s hs
  refine preserves_advance.noted (.start hs) fun opening s₁ h₁ => ensures_freshId' ?_
  refine (condition_notes hg .kwWhile).next (s := s₁.opening) h₁ fun test s₂ h₂ => ?_
  refine (loopBody_notes hg _ pending).next h₂ fun body s₃ h₃ => ?_
  have hnode : Noted s.names s₃.names
      [⟨.part, .node ⟨s₁.nextId⟩ (.leaf .kwWhile opening.line) [test, body]⟩] := h₃.parts _ rfl
  exact withJumps_notes hnode

theorem doStatement_notes (hg : NotesNames g) (pending : List NodeId) :
    Notes .part (g.doStatement pending) := by
  intro s hs
  refine preserves_advance.noted (.start hs) fun opening s₁ h₁ => ensures_freshId' ?_
  refine (loopBody_notes hg _ pending).next (s := s₁.opening) h₁ fun body s₂ h₂ => ?_
  refine (preserves_expect _ _).noted h₂ fun _ s₃ h₃ => ?_
  refine (condition_notes hg .kwWhile).next h₃ fun test s₄ h₄ => ?_
  refine (preserves_accept _).noted h₄ fun _ s₅ h₅ => ?_
  have hnode : Noted s.names s₅.names
      [⟨.part, .node ⟨s₁.nextId⟩ (.leaf .kwDo opening.line) [body, test]⟩] := h₅.parts _ rfl
  exact withJumps_notes hnode

theorem headerPart_notes {before : Tag} {part : Reading Tree} (hpart : Notes .part part) :
    Notes .part (headerPart before part) := by
  intro s hs
  refine ensures_get ?_
  dsimp only
  split
  · exact makeNode_parts (.start hs) rfl
  · exact hpart s hs

theorem forStart_notes (hg : NotesNames g) : Notes .part g.forStart := by
  refine headerPart_notes fun s hs => ?_
  exact ensures_ifCheck (fun _ => declarations_notes hg true s hs)
    fun _ => hg.expression true s hs

theorem forHeader_notes (hg : NotesNames g) {first : Tree} (h : Noted n s.names [⟨.part, first⟩]) :
    Ensures False (g.forHeader first) s fun header s' =>
      Noted n s'.names (header.2.map (Spot.mk .part)) ∧ header.1.holdsParts = true := by
  refine ensures_ifCheck (fun _ => ?_) fun _ => ?_
  · split
    · refine preserves_advance.noted h fun _ s₁ h₁ => ?_
      exact (hg.expression false).next h₁ fun object s₂ h₂ => ensures_pure ⟨h₂, rfl⟩
    · exact ensures_failAt
  · refine (preserves_expect _ _).noted h fun _ s₁ h₁ => ?_
    refine (headerPart_notes (hg.expression false)).next h₁ fun test s₂ h₂ => ?_
    refine (preserves_expect _ _).noted h₂ fun _ s₃ h₃ => ?_
    refine (headerPart_notes (hg.expression false)).next h₃ fun update s₄ h₄ => ?_
    exact ensures_pure ⟨h₄, rfl⟩

theorem forStatement_notes (hg : NotesNames g) (pending : List NodeId) :
    Notes .part (g.forStatement pending) := by
  intro s hs
  refine preserves_advance.noted (.start hs) fun opening s₁ h₁ => ?_
  refine (preserves_expect _ _).noted h₁ fun _ s₂ h₂ => ?_
  refine (forStart_notes hg).next h₂ fun first s₃ h₃ => ?_
  refine (forHeader_notes hg h₃).bind fun header s₄ ⟨h₄, htag⟩ => ensures_freshId' ?_
  refine (preserves_expect _ _).noted (s := s₄.opening) h₄ fun _ s₅ h₅ => ?_
  refine (loopBody_notes hg _ pending).next h₅ fun body s₆ h₆ => ?_
  rw [map_snoc] at h₆
  exact withJumps_notes (h₆.parts _ htag)

/-! ## Jumps and switches -/

theorem labelNode_notes (label? : Option String) (line : Nat) :
    NotesAll .named (labelNode label? line) := by
  intro s hs
  cases label? with
  | none => exact ensures_pure (.start hs)
  | some name =>
    exact (notes_name name line (Or.inl rfl)).next (.start hs) fun t s₁ h₁ => ensures_pure h₁

theorem jumpStatement_notes (hs : s.names.Sorted)
    (htag : s.current.tag = .kwBreak ∨ s.current.tag = .kwContinue) :
    Ensures False jumpStatement s fun t s' => Noted s.names s'.names [⟨.part, t⟩] := by
  have hadvance : Ensures False advance s fun t s' => t = s.current ∧ s'.names = s.names :=
    advance_current.and (preserves_advance s)
  refine hadvance.bind fun opening s₁ ⟨hopening, hs₁⟩ => ?_
  subst hopening
  have h₁ : Noted s.names s₁.names [] := hs₁.symm ▸ .start hs
  refine preserves_jumpLabel.noted h₁ fun label? s₂ h₂ => ?_
  refine (preserves_destination _ _ _).noted h₂ fun target s₃ h₃ => ensures_freshId' ?_
  refine (labelNode_notes label? _).next (s := s₃.opening) h₃ fun name s₄ h₄ => ?_
  let data : Node := .jump s.current.tag label? target s.current.line
  have hnode : Noted s.names s₄.names [⟨.part, .node ⟨s₃.nextId⟩ data name⟩] := by
    have hdata : data.tag = s.current.tag := rfl
    refine Noted.node ?_ ?_
    · have hplaced : Tree.placed s.current.tag 0 name = name.map (Spot.mk .named) :=
        Tree.placed_uniform (fun _ _ => by rcases htag with h | h <;> rw [h] <;> rfl) name
      rw [hdata, hplaced]
      exact h₄
    · rcases htag with h | h <;> rw [hdata, h] <;> rfl
  exact ensures_modify (preserves_endStatement.noted hnode fun _ s₅ h₅ => ensures_pure h₅)

theorem clauseHead_notes (hg : NotesNames g) (hasDefault : Bool) (hs : s.names.Sorted) :
    Ensures False (g.clauseHead hasDefault) s fun head s' =>
      Noted s.names s'.names (head.2.map (Spot.mk .part)) ∧ head.1.tag.holdsParts = true := by
  refine ensures_get ?_
  dsimp only
  split
  · refine preserves_advance.noted (.start hs) fun _ s₁ h₁ => ?_
    refine (hg.expression false).next h₁ fun test s₂ h₂ => ?_
    exact (preserves_expect _ _).noted h₂ fun _ s₃ h₃ => ensures_pure ⟨h₃, rfl⟩
  · cases hasDefault with
    | true => exact ensures_fail
    | false =>
      refine preserves_advance.noted (.start hs) fun _ s₁ h₁ => ?_
      exact (preserves_expect _ _).noted h₁ fun _ s₂ h₂ => ensures_pure ⟨h₂, rfl⟩
  · exact ensures_fail
  · exact ensures_unexpected

theorem clauseTurn_notes (hg : NotesNames g) {clauses : List Tree}
    (h : Noted n s.names (clauses.map (Spot.mk .part))) :
    Ensures False (g.clauseTurn clauses) s
      (Turn.Leads (fun ts s' => Noted n s'.names (ts.map (Spot.mk .part)))
        fun ts s' => Noted n s'.names (ts.map (Spot.mk .part))) := by
  refine ensures_ifCheck (fun _ => ensures_pure h) fun _ => ?_
  refine preserves_takeComments.noted h fun comments s₁ h₁ => ?_
  refine (clauseHead_notes hg _ h₁.sorted').bind fun head s₂ ⟨h₂, htag⟩ => ensures_freshId' ?_
  refine (itemsUntil_notes (s := s₂.opening) (hg.statement false) h₂).bind
    fun statements s₃ h₃ => ensures_pure ?_
  have hclause : Noted s₁.names s₃.names
      [⟨.part, withComments .comments comments (.node ⟨s₂.nextId⟩ head.1 statements)⟩] :=
    (h₃.parts _ htag).withComments rfl comments
  have hall := h₁.append hclause
  rwa [map_snoc] at hall

theorem clauses_notes (hg : NotesNames g) : NotesAll .part g.clauses := fun s hs =>
  ensures_iterate (I := fun ts s' => Noted s.names s'.names (ts.map (Spot.mk .part)))
    (fun _ _ h => clauseTurn_notes hg h) _ (.start hs)

theorem switchStatement_notes (hg : NotesNames g) : Notes .part g.switchStatement := by
  intro s hs
  refine preserves_advance.noted (.start hs) fun opening s₁ h₁ => ensures_freshId' ?_
  refine (preserves_expect _ _).noted (s := s₁.opening) h₁ fun _ s₂ h₂ => ?_
  refine (hg.expression false).next h₂ fun value s₃ h₃ => ?_
  refine (preserves_expect _ _).noted h₃ fun _ s₄ h₄ => ?_
  refine (preserves_expect _ _).noted h₄ fun _ s₅ h₅ => ?_
  have hclauses : NotesAll .part (withTarget ⟨s₁.nextId⟩ false [] g.clauses) := fun s hs =>
    withTarget_ensures (P := fun (ts : List Tree) n => Noted s.names n (ts.map (Spot.mk .part)))
      (clauses_notes hg _ hs)
  refine hclauses.next h₅ fun clauses s₆ h₆ => ?_
  refine preserves_takeComments.noted h₆ fun comments s₇ h₇ => ?_
  refine (preserves_expect _ _).noted h₇ fun _ s₈ h₈ => ?_
  have hnode : Noted s.names s₈.names
      [⟨.part, .node ⟨s₁.nextId⟩ (switchNode opening.line clauses) (value :: clauses)⟩] :=
    h₈.parts _ rfl
  exact withJumps_notes (hnode.withComments rfl comments)

/-! ## Labels and expressions -/

theorem labelledStatement_notes (hg : NotesNames g) (name : String) (line : Nat)
    (pending : List NodeId) : Notes .part (g.labelledStatement name line pending) := by
  intro s hs
  refine ensures_get ?_
  have hafter : Ensures False (do
      let _ ← advance
      let id ← freshId
      let nameNode ← makeNode (.identifier name line) []
      let s ← get
      set { s with labels := ⟨name, id, none⟩ :: s.labels, pendingLabels := pending ++ [id] }
      let body ← g.statement false
      modify ({ · with labels := s.labels })
      withJumps (.node id (.label name line) [nameNode, body])) s fun t s' =>
        Noted s.names s'.names [⟨.part, t⟩] := by
    refine preserves_advance.noted (.start hs) fun _ s₁ h₁ => ensures_freshId' ?_
    have hlabel : Notes .label (makeNode (.identifier name line) []) :=
      notes_name name line (Or.inr rfl)
    refine hlabel.next (s := s₁.opening) h₁ fun nameNode s₂ h₂ => ?_
    refine ensures_get (ensures_set ?_)
    have hbody := (hg.statement false).last (s := { s₂ with
      labels := ⟨name, ⟨s₁.nextId⟩, none⟩ :: s₂.labels, pendingLabels := pending ++ [⟨s₁.nextId⟩] })
      h₂
    refine hbody.bind fun body s₃ h₃ => ?_
    have hnode : Noted s.names s₃.names
        [⟨.part, .node ⟨s₁.nextId⟩ (.label name line) [nameNode, body]⟩] := h₃.node rfl
    exact ensures_modify (withJumps_notes hnode)
  split
  · exact ensures_failAt
  · exact hafter

/-- What was noted for a name that stands alone. -/
theorem names_lone {s₁ : State} {value : Tree} {name : String}
    (h : Noted s.names s₁.names [⟨.part, value⟩]) (htag : value.tag = .identifier)
    (hlone : IsLone name value) :
    s₁.scope.vars = s.scope.vars ∧ s₁.scope.uses = insertName name s.scope.uses := by
  have hchildren : value.children = [] := (h.settled ⟨.part, value⟩ (by simp)).name rfl htag
  have hname : value.name? = some name := by simp [Tree.name?, htag, hlone htag]
  have hinside : value.inside = [] := by simp [Tree.inside, hchildren, Tree.nodesUnder]
  have halong := h.along
  rw [List.flatMap_singleton, Spot.nodes, Tree.nodes_eq, hinside, ite_self] at halong
  obtain ⟨hvars, huses⟩ := Names.mk.inj halong
  refine ⟨hvars.trans ?_, huses.trans ?_⟩
  · simp [Spot.declared?, State.names]
  · simp [Spot.used?, hname, State.names]

theorem simpleStatement_notes (hg : NotesNames g) (pending : List NodeId) :
    Notes .part (g.simpleStatement pending) := by
  intro s hs
  refine ensures_get ?_
  dsimp only
  split
  · exact ensures_fail
  refine ensures_get ?_
  have hread : Ensures False (g.expressionOf false) s fun t s' =>
      Noted s.names s'.names [⟨.part, t⟩]
        ∧ (s.current.tag = .identifier → IsLone s.current.shown t) := by
    by_cases htag : s.current.tag = .identifier
    · refine ((expressionOf_notes hg false s hs).and (expressionOf_lone false s htag)).mono ?_
      exact fun t s' ⟨h, hlone⟩ => ⟨h, fun _ => hlone⟩
    · exact (expressionOf_notes hg false s hs).mono fun t s' h => ⟨h, fun ht => absurd ht htag⟩
  refine hread.bind fun value s₁ ⟨h₁, hlone⟩ => ensures_check ?_
  split
  · next hlabel =>
    simp only [Bool.and_eq_true, beq_iff_eq] at hlabel
    obtain ⟨⟨htag, hvalue⟩, -⟩ := hlabel
    obtain ⟨hvars, huses⟩ := names_lone h₁ hvalue (hlone htag)
    have hsorted : s.scope.uses.Pairwise (· < ·) := hs
    have hbody : ∀ s₂ : State, s₂.names = s.names →
        Ensures False (g.labelledStatement s.current.shown s.current.line pending) s₂
          fun t s' => Noted s.names s'.names [⟨.part, t⟩] := by
      intro s₂ hs₂
      have hstart : Noted s.names s₂.names [] := hs₂.symm ▸ .start hs
      exact (labelledStatement_notes hg _ _ pending).last hstart
    split
    · next hused =>
      refine hbody s₁ ?_
      simp only [State.names, hvars, huses]
      rw [insertName_mem hsorted (by simpa using hused)]
    · next hunused =>
      refine ensures_modify (hbody _ ?_)
      simp only [State.names, hvars, huses]
      rw [erase_insertName (by simpa using hunused)]
  · have hmake : ∀ s' : State, Noted s.names s'.names [⟨.part, value⟩] →
        Ensures False (endStatement >>= fun _ =>
          makeNode (.leaf .exprStatement s.current.line) [value]) s' fun t s'' =>
            Noted s.names s''.names [⟨.part, t⟩] := fun s' h' =>
      preserves_endStatement.noted h' fun _ s'' h'' => makeNode_parts h'' rfl
    split
    · exact hmake s₁ h₁
    · exact (preserves_warn _ _).noted h₁ fun _ s₂ h₂ => hmake s₂ h₂

theorem bareStatement_notes (hg : NotesNames g) (top : Bool) (pending : List NodeId) :
    Notes .part (g.bareStatement top pending) := by
  intro s hs
  refine ensures_get ?_
  dsimp only
  split
  · exact functionOf_notes hg _ s hs
  · exact block_notes hg "block" s hs
  · refine (declarations_notes hg false).next (.start hs) fun vars s₁ h₁ => ?_
    exact preserves_endStatement.noted h₁ fun _ s₂ h₂ => ensures_pure h₂
  · exact preserves_advance.noted (.start hs) fun _ s₁ h₁ => makeNode_parts h₁ rfl
  · exact ifStatement_notes hg s hs
  · exact whileStatement_notes hg pending s hs
  · exact doStatement_notes hg pending s hs
  · exact forStatement_notes hg pending s hs
  · next htag => exact jumpStatement_notes hs (Or.inl htag)
  · next htag => exact jumpStatement_notes hs (Or.inr htag)
  · exact returnStatement_notes hg s hs
  · exact withStatement_notes hg s hs
  · exact switchStatement_notes hg s hs
  · exact throwStatement_notes hg s hs
  · exact tryStatement_notes hg s hs
  · exact simpleStatement_notes hg pending s hs

theorem statementOf_notes (hg : NotesNames g) (top : Bool) : Notes .part (g.statementOf top) := by
  intro s hs
  refine preserves_takeComments.noted (.start hs) fun comments s₁ h₁ => ?_
  refine ensures_get (ensures_modify ?_)
  refine (bareStatement_notes hg top s₁.pendingLabels).next
    (s := { s₁ with pendingLabels := [] }) h₁ fun t s₂ h₂ => ensures_pure ?_
  exact h₂.withComments rfl comments

end ScriptPress.Grammar
