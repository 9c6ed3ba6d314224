import ScriptPress.Proofs.Jumps.Expression

/-! # Jumps in statements

A jump goes to what its state says, and a state inside a statement says what the nodes around it
do. Loops and switches hand the jumps to them to their nodes when their bodies are read.
-/
namespace ScriptPress.Grammar
open State (Tame)

variable {g : Grammar} {α β : Type} {P Q : Tree → Prop} {opened : List NodeId} {s s₀ s₁ : State}
  {ts cs cs' : List Tree}

namespace State

/-- What can be jumped to behind some labels, at a state inside the statement they label. -/
def behind (s : State) (pending : List NodeId) : Env := { s.env with pending := pending }

theorem settled_behind (hp : s.pendingLabels = []) (pending : List NodeId) :
    (s.behind pending).settled = s.env := by
  simp only [behind, env, Env.settled, hp]

theorem within_env (hp : s.pendingLabels = []) (id : NodeId) (isLoop : Bool)
    (pending : List NodeId) : (s.within id isLoop pending).env
      = (s.behind pending).within id isLoop := by
  simp only [within, behind, env, Env.within, hp]

end State

/-- A node of a statement that changes nothing for jumps, over parts read before it. -/
theorem makeNode_statement {data : Node} {pending : List NodeId}
    (h : Took (Aimed s₀.env) [] s₀ s ts) (hp : s₀.pendingLabels = []) (hdata : data.Quiet)
    (ht : (data.tag.isPlain && !Env.changes data.tag) = true) :
    Ensures False (makeNode data ts) s fun t s' => Took (Aimed (s₀.behind pending)) [] s₀ s' [t] := by
  obtain ⟨hplain, hchanges⟩ := Bool.and_eq_true_iff.mp ht
  rw [Bool.not_eq_true'] at hchanges
  refine makeNode_counts h hdata fun id => aimed_node (not_jump_of_plain hplain) hchanges ?_
  rw [State.settled_behind hp]
  exact h.all

/-! ## Parts -/

theorem operand_aimed {env : Env} : ∀ t, Operand t → Aimed env t := fun _ h => h.enclosed env

theorem condition_counts (hg : Steers g) (keyword : Tag) : Counts Operand (g.condition keyword) := by
  intro s hs
  refine (idle_expect _ _).next (.refl (P := Operand) hs) fun _ s₁ h₁ => ?_
  refine (hg.expression false).next (fun _ h => h) h₁ fun test s₂ _ h₂ => ?_
  have hclose : ∀ s', Took Operand [] s s' [test] →
      Ensures False (expect .rightParen .parenAfterCondition >>= fun _ => pure test) s'
        fun t s'' => Took Operand [] s s'' [t] := fun s' h' =>
    (idle_expect _ _).next h' fun _ s'' h'' => ensures_pure h''
  split
  · exact (idle_warn _ _).next h₂ fun _ s₃ h₃ => hclose s₃ h₃
  · exact hclose s₂ h₂

theorem block_counts (hg : Steers g) {construct : String} (hs : Tame s)
    (hp : s.pendingLabels = []) :
    Ensures False (g.block construct) s fun t s' =>
      Took (Apart s.env) [] s s' [t] := by
  refine (idle_expect .leftBrace (.braceBeforeBody construct)).next (.refl (P := Apart s.env) hs)
    fun brace s₁ h₁ => ?_
  have hblock : Ensures False (g.blockAfterBrace false brace.line construct) s₁ _ :=
    blockAfterBrace_counts hg h₁.tame (h₁.pending hp)
  rw [h₁.env hp] at hblock
  exact hblock.mono fun t s' h' => h₁.and_then h' fun _ ht => ht

/-- A block read after others inside a node. -/
theorem block_next (hg : Steers g) {construct : String} {env : Env} (henv : s₀.env = env)
    (hp : s₀.pendingLabels = []) (h : Took (Aimed env) opened s₀ s ts) :
    Ensures False (g.block construct) s fun t s' => Took (Aimed env) opened s₀ s' (ts ++ [t]) := by
  have hblock : Ensures False (g.block construct) s _ :=
    block_counts hg h.tame (h.pending hp)
  rw [h.env hp, henv] at hblock
  refine hblock.mono fun t s' h' => h.and_then h' fun _ ht => ht env ?_
  rw [← henv, settled_env hp]

theorem declaration_counts (hg : Steers g) (noIn : Bool) : Counts Enclosed (g.declaration noIn) := by
  intro s hs
  refine (idle_declaredName _).next (.refl (P := Enclosed) hs) fun name s₁ h₁ => ?_
  refine (idle_declare _ _).next h₁ fun _ s₂ h₂ => ?_
  refine ensures_freshId' (ensures_get ?_)
  have hopening : Took Enclosed [] s₂.opening s₂.opening [] := .refl h₂.tame_opening
  dsimp only
  split
  · refine idle_advance.next hopening fun t s₃ h₃ => ?_
    refine (hg.assignment noIn).next (fun _ h => h.enclosed) h₃ fun value s₄ _ h₄ => ?_
    exact ensures_pure (h₂.close_quiet h₄ (Node.quiet_identifier _ _) (enclosed_node rfl h₄.all))
  · exact ensures_pure (h₂.close_quiet hopening (Node.quiet_identifier _ _)
      (enclosed_node rfl hopening.all))

theorem declarations_counts (hg : Steers g) (noIn : Bool) :
    Counts Enclosed (g.declarations noIn) := by
  intro s hs
  refine idle_advance.next (.refl (P := Enclosed) hs) fun t s₁ h₁ => ?_
  refine (itemsBetweenCommas_counts (declaration_counts hg noIn)).next (fun _ h => h) h₁
    fun names s₂ h₂ => ?_
  exact makeNode_counts h₂ (Node.quiet_leaf rfl _) fun _ => enclosed_node rfl h₂.all

/-! ## Statements that change nothing for jumps -/

section
variable {pending : List NodeId} (hs : Tame s) (hp : s.pendingLabels = [])
include hs hp

theorem ifStatement_counts (hg : Steers g) : Ensures False g.ifStatement s fun t s' =>
    Took (Aimed (s.behind pending)) [] s s' [t] := by
  refine idle_advance.next (.refl (P := Aimed s.env) hs) fun opening s₁ h₁ => ?_
  refine (condition_counts hg .kwIf).next operand_aimed h₁ fun test s₂ _ h₂ => ?_
  refine (statement_next hg rfl hp h₂).bind fun yes s₃ h₃ => ?_
  have hmake : ∀ no s', Took (Aimed s.env) [] s s' (test :: yes :: no) →
      Ensures False (makeNode (.leaf .kwIf opening.line) (test :: yes :: no)) s'
        fun t s'' => Took (Aimed (s.behind pending)) [] s s'' [t] := fun no s' h' =>
    makeNode_statement h' hp (Node.quiet_leaf rfl _) rfl
  refine (idle_accept .kwElse).next h₃ fun b s₄ h₄ => ?_
  split
  · exact (statement_next hg rfl hp h₄).bind fun no s₅ h₅ => hmake [no] s₅ h₅
  · exact hmake [] s₄ h₄

theorem returnStatement_counts (hg : Steers g) : Ensures False g.returnStatement s fun t s' =>
    Took (Aimed (s.behind pending)) [] s s' [t] := by
  refine ensures_get ?_
  have hafter : Ensures False (do
      let opening ← advance
      let value ←
        if endsStatement (← get).current then pure [] else pure [← g.expression false]
      endStatement
      makeNode (.leaf .kwReturn opening.line) value) s fun t s' =>
        Took (Aimed (s.behind pending)) [] s s' [t] := by
    refine idle_advance.next (.refl (P := Aimed s.env) hs) fun opening s₁ h₁ => ?_
    have hmake : ∀ value s', Took (Aimed s.env) [] s s' value →
        Ensures False (endStatement >>= fun _ => makeNode (.leaf .kwReturn opening.line) value) s'
          fun t s'' => Took (Aimed (s.behind pending)) [] s s'' [t] := fun value s' h' =>
      idle_endStatement.next h' fun _ s'' h'' =>
        makeNode_statement h'' hp (Node.quiet_leaf rfl _) rfl
    refine ensures_get ?_
    split
    · exact hmake [] s₁ h₁
    · exact (hg.expression false).next operand_aimed h₁ fun value s₂ _ h₂ => hmake [value] s₂ h₂
  split
  · exact ensures_fail
  · exact hafter

theorem withStatement_counts (hg : Steers g) : Ensures False g.withStatement s fun t s' =>
    Took (Aimed (s.behind pending)) [] s s' [t] := by
  refine idle_advance.next (.refl (P := Aimed s.env) hs) fun opening s₁ h₁ => ?_
  refine (idle_expect _ _).next h₁ fun _ s₂ h₂ => ?_
  refine (hg.expression false).next operand_aimed h₂ fun object s₃ _ h₃ => ?_
  refine (idle_expect _ _).next h₃ fun _ s₄ h₄ => ?_
  refine idle_needActivation.next h₄ fun _ s₅ h₅ => ?_
  refine (statement_next hg rfl hp h₅).bind fun body s₆ h₆ => ?_
  exact makeNode_statement h₆ hp (Node.quiet_leaf rfl _) rfl

theorem throwStatement_counts (hg : Steers g) : Ensures False g.throwStatement s fun t s' =>
    Took (Aimed (s.behind pending)) [] s s' [t] := by
  refine idle_advance.next (.refl (P := Aimed s.env) hs) fun opening s₁ h₁ => ?_
  refine ensures_get ?_
  split
  · exact ensures_fail
  refine (hg.expression false).next operand_aimed h₁ fun value s₂ _ h₂ => ?_
  refine idle_endStatement.next h₂ fun _ s₃ h₃ => ?_
  exact makeNode_statement h₃ hp (Node.quiet_leaf rfl _) rfl

end

/-! ## Exceptions -/

theorem catchGuard_counts (hg : Steers g) : CountsAll Operand g.catchGuard := by
  intro s hs
  refine ensures_ifCheck (fun _ => ?_) fun _ => ensures_pure (.refl hs)
  refine ensures_get ?_
  dsimp only
  split
  · refine idle_advance.next (.refl (P := Operand) hs) fun t s₁ h₁ => ?_
    exact (hg.expression false).next (fun _ h => h) h₁ fun guard s₂ _ h₂ => ensures_pure h₂
  · exact ensures_fail

/-- A node inside a statement, at a place with no label in front of it. -/
theorem makeNode_part {data : Node} (h : Took (Aimed s₀.env) [] s₀ s ts)
    (hp : s₀.pendingLabels = []) (hdata : data.Quiet)
    (ht : (data.tag.isPlain && !Env.changes data.tag) = true) :
    Ensures False (makeNode data ts) s fun t s' => Took (Aimed s₀.env) [] s₀ s' [t] := by
  have hbehind : s₀.behind [] = s₀.env := by simp only [State.behind, State.env, hp]
  rw [← hbehind] at h ⊢
  exact makeNode_statement (hbehind ▸ h) hp hdata ht

theorem catchClause_counts (hg : Steers g) (hs : Tame s) (hp : s.pendingLabels = []) :
    Ensures False g.catchClause s fun t s' => Took (Aimed s.env) [] s s' [t] := by
  refine idle_advance.next (.refl (P := Aimed s.env) hs) fun opening s₁ h₁ => ?_
  refine (idle_expect _ _).next h₁ fun _ s₂ h₂ => ?_
  refine (idle_declaredName _).next h₂ fun name s₃ h₃ => ?_
  refine (counts_name name.1 name.2).next operand_aimed h₃ fun nameNode s₄ _ h₄ => ?_
  refine (catchGuard_counts hg).next operand_aimed h₄ fun guard s₅ h₅ => ?_
  refine (idle_expect _ _).next h₅ fun _ s₆ h₆ => ?_
  refine (block_next hg rfl hp h₆).bind fun handler s₇ h₇ => ?_
  exact makeNode_part h₇ hp (Node.quiet_leaf rfl _) rfl

theorem finallyPart_counts (hg : Steers g) (hs : Tame s) (hp : s.pendingLabels = []) :
    Ensures False g.finallyPart s fun ts s' => Took (Aimed s.env) [] s s' ts := by
  have hstart : Took (Aimed s.env) [] s s [] := .refl hs
  refine ensures_ifCheck (fun _ => ?_) fun _ => ensures_pure hstart
  refine idle_advance.next hstart fun t s₁ h₁ => ?_
  refine (block_next hg rfl hp h₁).bind fun body s₂ h₂ => ?_
  exact (makeNode_part h₂ hp (Node.quiet_leaf rfl _) rfl).bind fun t s₃ h₃ => ensures_pure h₃

theorem tryStatement_counts (hg : Steers g) (hs : Tame s) (hp : s.pendingLabels = [])
    {pending : List NodeId} : Ensures False g.tryStatement s fun t s' =>
      Took (Aimed (s.behind pending)) [] s s' [t] := by
  refine idle_advance.next (.refl (P := Aimed s.env) hs) fun opening s₁ h₁ => ?_
  refine (block_next hg rfl hp h₁).bind fun body s₂ h₂ => ?_
  refine (itemsUntil_counts [] (.refl (P := Aimed s.env) h₂.tame) fun s' ts h => ?_).bind
    fun catches s₃ ⟨rest, hrest, h₃⟩ => ?_
  · have hclause := catchClause_counts hg h.tame (h.pending (h₂.pending hp))
    rw [h.env (h₂.pending hp), h₂.env hp] at hclause
    exact hclause.mono fun t s'' h' => h.and_then h' fun _ ht => ht
  subst hrest
  have h₃ := h₂.trans h₃
  have hfinally := finallyPart_counts hg h₃.tame (h₃.pending hp)
  rw [h₃.env hp] at hfinally
  refine hfinally.bind fun finally? s₄ h₄ => ?_
  have h₄ := h₃.trans h₄
  split
  · exact ensures_fail
  · exact makeNode_statement h₄ hp (Node.quiet_leaf rfl _) rfl

/-! ## Loops -/

/-- The node of a target, with the jumps to it. -/
theorem withJumps_counts {data : Node} (h : Took P [] s₀ s₁ cs)
    (h' : Took Q [⟨s₁.nextId⟩] s₁.opening s cs')
    (hfunction : data.tag ≠ .kwFunction)
    (hjump : (Tree.node ⟨s₁.nextId⟩ data (cs ++ cs')).isJump = false)
    (hrefs : ∀ r ∈ data.refs, r ∈ Tree.ids (cs ++ cs'))
    (hnone : data.properties.get? .jumps = none)
    (hswitched : (Tree.node ⟨s₁.nextId⟩ data (cs ++ cs')).Switched) {env : Env}
    (haimed : Aimed env (.node ⟨s₁.nextId⟩ data (cs ++ cs'))) :
    Ensures False (withJumps (.node ⟨s₁.nextId⟩ data (cs ++ cs'))) s fun t s' =>
      Took (Aimed env) [] s₀ s' [t] := by
  have hjumps : s.jumps = s₀.jumps ++ Tree.jumps cs ++ Tree.jumps cs' := by
    have h₁ : s₁.jumps = s₀.jumps ++ Tree.jumps cs := h.tally.jumps
    have h₂ : s.jumps = s₁.jumps ++ Tree.jumps cs' := h'.tally.jumps
    rw [h₂, h₁]
  -- A jump that was written down while the node was read comes from its parts.
  have hsource : ∀ r ∈ jumpsTo ⟨s₁.nextId⟩ s.jumps, r ∈ Tree.ids (cs ++ cs') := by
    intro r hr
    obtain ⟨j, hj, rfl⟩ := List.mem_map.mp hr
    obtain ⟨hj, hto⟩ := List.mem_filter.mp hj
    rw [beq_iff_eq] at hto
    rw [hjumps, List.append_assoc, ← Tree.jumps_append] at hj
    rcases List.mem_append.mp hj with hj | hj
    · have hlt := h.covers.jumps j hj
      have hle : s₀.nextId ≤ s₁.nextId := h.tally.le
      rw [hto] at hlt
      exact absurd hlt (Nat.not_lt.mpr hle)
    · obtain ⟨t, ht, hjt⟩ := List.mem_filterMap.mp hj
      rw [Tree.jump?] at hjt
      split at hjt
      · obtain ⟨target, -, rfl⟩ := Option.map_eq_some_iff.mp hjt
        exact Tree.mem_ids ht
      · cases hjt
  refine ensures_get (ensures_pure ?_)
  refine h.closed h' ?_ ?_ (fun htally => ?_) ?_
  · split <;> rfl
  · split <;> exact hfunction
  · split
    · next hempty =>
      refine h.tally.node rfl htally h.covers goals_known hjump
        (fun r hr => Or.inr (Or.inl (hrefs r hr))) ?_ hswitched
      have hnil : jumpsTo ⟨s₁.nextId⟩ s.jumps = [] := List.isEmpty_iff.mp hempty
      rw [hnone]
      exact (congrArg listed? hnil).symm
    · next hsome =>
      refine h.tally.node rfl htally h.covers goals_known hjump (fun r hr => ?_) ?_ ?_
      · rcases Node.refs_put r hr with hr | hr
        · exact Or.inr (Or.inl (hsource r hr))
        · exact Or.inr (Or.inl (hrefs r hr))
      · exact (Properties.get?_put _).trans ((if_pos rfl).trans (if_neg hsome).symm)
      · intro htag
        obtain ⟨hcases, hdefault, hone⟩ := hswitched htag
        exact ⟨(Properties.get?_put _).trans ((if_neg (by simp)).trans hcases),
          (Properties.get?_put _).trans ((if_neg (by simp)).trans hdefault), hone⟩
  · split
    · exact haimed
    · exact haimed.put (by simp) (by simp)

theorem goals_within {id : NodeId} {isLoop : Bool} {pending : List NodeId} :
    ∀ i ∈ (s.within id isLoop pending).goals, i ∈ [id] ++ s.goals := by
  intro i hi
  have hid : ∀ l : LabelEntry, (l.before pending id).id = l.id := fun l => by
    unfold LabelEntry.before
    split <;> rfl
  cases isLoop with
  | false =>
    simp only [State.goals, State.within, List.map_cons] at hi ⊢
    simpa using hi
  | true =>
    simp only [State.goals, State.within, if_true, List.map_cons, List.map_map, List.mem_append,
      List.mem_cons, List.mem_filterMap, List.mem_map] at hi ⊢
    rcases hi with ((rfl | htarget) | ⟨l, hl, rfl⟩) | ⟨l, ⟨l', hl', rfl⟩, hloop⟩
    · simp
    · exact Or.inr (Or.inl (Or.inl htarget))
    · exact Or.inr (Or.inl (Or.inr ⟨l, hl, (hid l).symm⟩))
    · unfold LabelEntry.before at hloop
      split at hloop
      · exact Or.inl (Or.inl (Option.some.inj hloop).symm)
      · exact Or.inr (Or.inr ⟨l', hl', hloop⟩)

/-- What is read with a statement open for jumps. -/
theorem withTarget_counts {f : α → List Tree} {body : Reading α} {id : NodeId} {isLoop : Bool}
    {pending : List NodeId} {R : α → Prop} (h : Took P [id] s₁ s cs)
    (hbody : Tame (s.within id isLoop pending) → Ensures False body (s.within id isLoop pending)
      fun a s' => Took P [] (s.within id isLoop pending) s' (f a) ∧ R a) :
    Ensures False (withTarget id isLoop pending body) s fun a s' =>
      Took P [id] s₁ s' (cs ++ f a) ∧ R a := by
  refine ensures_get (ensures_set ?_)
  have hknown : ∀ i ∈ (s.within id isLoop pending).known, i ∈ [id] ++ s.known := by
    intro i hi
    rcases List.mem_append.mp hi with hi | hi
    · rw [State.known, ← List.append_assoc]
      exact List.mem_append_left _ (goals_within i hi)
    · exact List.mem_append_right _ (List.mem_append_right _ hi)
  have htame : Tame (s.within id isLoop pending) :=
    ⟨fun i hi => h.covered.known i (hknown i hi), h.covered.jumps⟩
  refine (hbody htame).bind fun a s' hread => ?_
  obtain ⟨hb, ha⟩ := hread
  refine ensures_modify (ensures_pure ⟨h.trans ?_, ha⟩)
  exact ⟨rfl, rfl, hb.function?, hb.pending, hb.functions, hb.nested, h.covered,
    hb.tally.mono (fun i hi => goals_within i hi) hknown, hb.all⟩

/-- The body of a loop. -/
theorem loopBody_counts (hg : Steers g) {id : NodeId} {env : Env}
    (henv : (s.within id true pending).env = env) (h : Took (Aimed env) [id] s₁ s cs) :
    Ensures False (withTarget id true pending (g.statement false)) s fun t s' =>
      Took (Aimed env) [id] s₁ s' (cs ++ [t]) := by
  refine (withTarget_counts (f := fun t => [t]) (R := fun _ => True) h fun htame => ?_).mono
    fun _ _ ht => ht.1
  exact (statement_counts hg htame henv).mono fun _ _ ht => ⟨ht, trivial⟩

/-- A loop over the parts of its header and its body. -/
theorem aimed_loop {env : Env} {id : NodeId} {data : Node} {cs : List Tree}
    (ht : data.tag.isLoop = true) (h : ∀ c ∈ cs, Aimed (env.within id true) c) :
    Aimed env (.node id data cs) := by
  refine .intro (fun hj => ?_) ?_
  · simp only [Tree.isJump, Tree.tag, Tree.data] at hj
    cases htag : data.tag <;> simp_all [Tag.isLoop]
  · rw [Env.enter_loop env (t := .node id data cs) ht]
    exact h

theorem env_loop {s' : State} {id : NodeId} {pending : List NodeId} (hp : s.pendingLabels = [])
    (hk : s'.env = s.env) :
    (s'.within id true pending).env = (s.behind pending).within id true := by
  obtain ⟨htargets, hlabels, hpending⟩ := Env.mk.inj hk
  rw [State.within_env (hpending.trans hp)]
  simp only [State.behind, hk]

section
variable {pending : List NodeId} (hs : Tame s) (hp : s.pendingLabels = [])
include hs hp

theorem whileStatement_counts (hg : Steers g) : Ensures False (g.whileStatement pending) s
    fun t s' => Took (Aimed (s.behind pending)) [] s s' [t] := by
  refine idle_advance.next (.refl (P := Operand) hs) fun opening s₁ h₁ => ?_
  refine ensures_freshId' ?_
  refine (condition_counts hg .kwWhile).next operand_aimed
    (h₁.opening (Q := Aimed ((s.behind pending).within ⟨s₁.nextId⟩ true)))
    fun test s₂ _ h₂ => ?_
  have henv : s₂.env = s.env := (h₂.env (h₁.pending hp)).trans (h₁.env hp)
  refine (loopBody_counts hg (env_loop hp henv) h₂).bind fun body s₃ h₃ => ?_
  exact withJumps_counts h₁ h₃ (by simp [Node.leaf]) rfl (by simp [Node.refs, Node.leaf]) rfl
    (fun h => by simp [Tree.tag, Tree.data, Node.leaf] at h) (aimed_loop rfl h₃.all)

theorem doStatement_counts (hg : Steers g) : Ensures False (g.doStatement pending) s
    fun t s' => Took (Aimed (s.behind pending)) [] s s' [t] := by
  refine idle_advance.next (.refl (P := Operand) hs) fun opening s₁ h₁ => ?_
  refine ensures_freshId' ?_
  have hopening := h₁.opening (Q := Aimed ((s.behind pending).within ⟨s₁.nextId⟩ true))
  have henv : s₁.opening.env = s.env := h₁.env hp
  refine (loopBody_counts hg (env_loop hp henv) hopening).bind fun body s₂ h₂ => ?_
  refine (idle_expect _ _).next h₂ fun _ s₃ h₃ => ?_
  refine (condition_counts hg .kwWhile).next operand_aimed h₃ fun test s₄ _ h₄ => ?_
  refine (idle_accept _).next h₄ fun _ s₅ h₅ => ?_
  exact withJumps_counts h₁ h₅ (by simp [Node.leaf]) rfl (by simp [Node.refs, Node.leaf]) rfl
    (fun h => by simp [Tree.tag, Tree.data, Node.leaf] at h) (aimed_loop rfl h₅.all)

end

theorem headerPart_counts {before : Tag} {part : Reading Tree} (hpart : Counts Enclosed part) :
    Counts Enclosed (headerPart before part) := by
  intro s hs
  refine ensures_get ?_
  dsimp only
  split
  · exact makeNode_counts (.refl (P := Enclosed) hs) (Node.quiet_leaf rfl _) fun _ =>
      enclosed_node rfl
      (by simp [Tree.children])
  · exact hpart s hs

theorem counts_enclosed {m : Reading Tree} (h : Counts Operand m) : Counts Enclosed m := fun s hs =>
  (h s hs).mono fun _ _ ht => ht.mono fun _ ho => ho.enclosed

theorem forStart_counts (hg : Steers g) : Counts Enclosed g.forStart := by
  refine headerPart_counts fun s hs => ?_
  exact ensures_ifCheck (fun _ => declarations_counts hg true s hs)
    fun _ => counts_enclosed (hg.expression true) s hs

theorem forHeader_counts (hg : Steers g) {first : Tree} (h : Took Enclosed [] s₀ s [first]) :
    Ensures False (g.forHeader first) s fun header s' =>
      Took Enclosed [] s₀ s' header.2 ∧ (header.1 = .kwFor ∨ header.1 = .forIn) := by
  have hexpr := counts_enclosed (hg.expression false)
  refine ensures_ifCheck (fun _ => ?_) fun _ => ?_
  · split
    · refine idle_advance.next h fun _ s₁ h₁ => ?_
      exact hexpr.next (fun _ h => h) h₁ fun object s₂ _ h₂ => ensures_pure ⟨h₂, Or.inr rfl⟩
    · exact ensures_failAt
  · refine (idle_expect _ _).next h fun _ s₁ h₁ => ?_
    refine (headerPart_counts hexpr).next (fun _ h => h) h₁ fun test s₂ _ h₂ => ?_
    refine (idle_expect _ _).next h₂ fun _ s₃ h₃ => ?_
    refine (headerPart_counts hexpr).next (fun _ h => h) h₃ fun update s₄ _ h₄ => ?_
    exact ensures_pure ⟨h₄, Or.inl rfl⟩

theorem forStatement_counts (hg : Steers g) {pending : List NodeId} (hs : Tame s)
    (hp : s.pendingLabels = []) : Ensures False (g.forStatement pending) s
      fun t s' => Took (Aimed (s.behind pending)) [] s s' [t] := by
  refine idle_advance.next (.refl (P := Enclosed) hs) fun opening s₁ h₁ => ?_
  refine (idle_expect _ _).next h₁ fun _ s₂ h₂ => ?_
  refine (forStart_counts hg).next (fun _ h => h) h₂ fun first s₃ _ h₃ => ?_
  refine (forHeader_counts hg h₃).bind fun header s₄ ⟨h₄, htag⟩ => ?_
  obtain ⟨tag, header⟩ := header
  refine ensures_freshId' ?_
  have hopening := h₄.opening (Q := Aimed ((s.behind pending).within ⟨s₄.nextId⟩ true))
  refine (idle_expect _ _).next hopening fun _ s₅ h₅ => ?_
  have henv : s₅.env = s.env := (h₅.env (h₄.pending hp)).trans (h₄.env hp)
  refine (loopBody_counts hg (env_loop hp henv) h₅).bind fun body s₆ h₆ => ?_
  have hloop : tag.isLoop = true := by rcases htag with rfl | rfl <;> rfl
  refine withJumps_counts h₄ h₆ ?_ ?_ (by simp [Node.refs, Node.leaf]) rfl (fun h => ?_)
    (aimed_loop hloop fun c hc => ?_)
  · rcases htag with rfl | rfl <;> simp [Node.leaf]
  · rcases htag with rfl | rfl <;> rfl
  · rcases htag with rfl | rfl <;> simp [Tree.tag, Tree.data, Node.leaf] at h
  · exact (List.mem_append.mp hc).elim (fun hc => h₄.all c hc _) (h₆.all c)

/-! ## Jumps -/

theorem idle_jumpLabel : Idle jumpLabel := preserves_jumpLabel

/-- A jump goes to a node in force, the one its environment says. -/
theorem destination_aims (tag : Tag) (label? : Option String) (line : Nat) :
    Ensures False (destination tag label? line) s fun target s' =>
      s' = s ∧ s.env.aim tag label? = some target ∧ target ∈ s.goals := by
  refine ensures_get ?_
  cases label? with
  | none =>
    dsimp only
    split
    · next hbreak =>
      split
      · next t ht =>
        refine ensures_pure ⟨rfl, by simp [Env.aim, State.env, hbreak, ht], ?_⟩
        have hmem := List.mem_of_mem_head? ht
        simp only [State.goals, List.mem_append, List.mem_map]
        exact Or.inl (Or.inl ⟨t, hmem, rfl⟩)
      · exact ensures_failAt
    · next hbreak =>
      split
      · next t ht =>
        refine ensures_pure ⟨rfl, by simp [Env.aim, State.env, hbreak, ht], ?_⟩
        have hmem := List.mem_of_find?_eq_some ht
        simp only [State.goals, List.mem_append, List.mem_map]
        exact Or.inl (Or.inl ⟨t, hmem, rfl⟩)
      · exact ensures_failAt
  | some name =>
    dsimp only
    split
    · exact ensures_failAt
    · next l hl =>
      have hfind : s.labels.find? (·.name == name) = some l := hl
      have hmem := List.mem_of_find?_eq_some hfind
      split
      · next hbreak =>
        refine ensures_pure ⟨rfl, by simp [Env.aim, State.env, hfind, hbreak], ?_⟩
        simp only [State.goals, List.mem_append, List.mem_map]
        exact Or.inl (Or.inr ⟨l, hmem, rfl⟩)
      · next hbreak =>
        split
        · next target htarget =>
          refine ensures_pure ⟨rfl, by simp [Env.aim, State.env, hfind, hbreak, htarget], ?_⟩
          simp only [State.goals, List.mem_append, List.mem_filterMap]
          exact Or.inr ⟨l, hmem, htarget⟩
        · exact ensures_failAt

/-- A name, with nothing in it. -/
def Named (t : Tree) : Prop := Operand t ∧ t.tag = .identifier

theorem jumps_named {ts : List Tree} (h : ∀ t ∈ ts, Named t) :
    Tree.jumps ts = [] ∧ Tree.directFunctions ts = [] := by
  induction ts with
  | nil => exact ⟨rfl, rfl⟩
  | cons t ts ih =>
    obtain ⟨⟨hoperand, htag⟩, hts⟩ := List.forall_mem_cons.mp h
    obtain ⟨hjumps, hfunctions⟩ := ih hts
    have hchildren := hoperand.name htag
    constructor
    · rw [← List.singleton_append, Tree.jumps_append, hjumps, Tree.jumps_singleton, hchildren,
        Tree.jump?, Tree.isJump, htag]
      rfl
    · rw [← List.singleton_append, Tree.directFunctions_append, hfunctions,
        Tree.directFunctions_other (by simp [htag]), hchildren]
      rfl

theorem counts_named (name : String) (line : Nat) :
    Counts Named (makeNode (.identifier name line) []) :=
  counts_leaf (Node.quiet_identifier _ _) fun _ => ⟨operand_leaf rfl, rfl⟩

theorem labelNode_counts (label? : Option String) (line : Nat) :
    CountsAll Named (labelNode label? line) := by
  intro s hs
  cases label? with
  | none => exact ensures_pure (.refl hs)
  | some name =>
    exact (counts_named name line).next (fun _ h => h) (.refl (P := Named) hs)
      fun t s₁ _ h₁ => ensures_pure h₁

theorem get?_jump (tag : Tag) (label? : Option String) (target : NodeId) (line : Nat) :
    (Node.jump tag label? target line).properties.get? .target = some (.node target)
      ∧ (Node.jump tag label? target line).properties.get? .jumps = none
      ∧ (Node.jump tag label? target line).labelName? = label?
      ∧ (Node.jump tag label? target line).refs = [target] := by
  cases label? <;> exact ⟨rfl, rfl, rfl, rfl⟩

theorem aim_settled {env env' : Env} (htargets : env.targets = env'.targets)
    (hlabels : env.labels = env'.labels) (tag : Tag) (label? : Option String) :
    env.aim tag label? = env'.aim tag label? := by
  simp only [Env.aim, htargets, hlabels]

/-- A jump that was written down, with its label. -/
theorem jump_closed {target : NodeId} {data : Node} {s' : State} {env : Env}
    (h : Took P [] s₀ s []) (h' : Took Named [] s.opening s' cs)
    (hjump : (Tree.node ⟨s.nextId⟩ data cs).isJump = true)
    (htarget : data.properties.get? .target = some (.node target)) (hgoal : target ∈ s.goals)
    (hrefs : data.refs = [target]) (hnoted : data.properties.get? .jumps = none)
    (haim : env.aim data.tag data.labelName? = some target) :
    Took (Aimed env) [] s₀ { s' with jumps := s'.jumps ++ [(target, ⟨s.nextId⟩)] }
      [.node ⟨s.nextId⟩ data cs] := by
  obtain ⟨hcs, -⟩ := jumps_named h'.all
  have htag : data.tag ≠ .kwFunction := fun he => by
    simp [Tree.isJump, Tree.tag, Tree.data, he] at hjump
  have hgoals : s.goals = s₀.goals := by simp only [State.goals, h.targets, h.labels]
  have htally' := h'.tally
  rw [show s.opening.goals = s₀.goals from hgoals, show s.opening.known = s₀.known from h.known]
    at htally'
  have hl : s.ledger.Covers s₀.known := h.known ▸ h.tame
  have htally := Tally.jump (l := s.ledger) rfl htally' hcs hl goals_known hjump htarget
    (hgoals ▸ hgoal) (fun r hr => by simpa [hrefs] using hr) hnoted
  refine ⟨h'.targets.trans h.targets, h'.labels.trans h.labels, h'.function?.trans h.function?,
    fun hp => h'.pending (h.pending hp), ?_, ?_, h.covers, h.tally.append htally h.low, ?_⟩
  · have hbefore : s.scope.functions = s₀.scope.functions := by simpa using h.functions
    rw [h'.functions, State.opening, hbefore,
      Tree.directFunctions_other (t := .node ⟨s.nextId⟩ data cs) htag]
    rfl
  · rw [List.forall_mem_singleton, ← h.function?]
    exact .node htag h'.nested
  · rw [List.forall_mem_singleton]
    refine .intro (fun _ => ⟨target, htarget, haim⟩) fun c hc => (h'.all c hc).1.enclosed _

theorem jumpStatement_counts {pending : List NodeId} (hs : Tame s)
    (htag : s.current.tag = .kwBreak ∨ s.current.tag = .kwContinue) :
    Ensures False jumpStatement s fun t s' => Took (Aimed (s.behind pending)) [] s s' [t] := by
  refine (advance_still s).bind fun opening s₁ ⟨hopening, hv⟩ => ?_
  subst hopening
  have h₁ := (Took.refl (P := Named) hs).still hv
  refine idle_jumpLabel.next h₁ fun label? s₂ h₂ => ?_
  refine (destination_aims s.current.tag label? s.current.line).bind
    fun target s₂' ⟨he, haim, hgoal⟩ => ?_
  subst he
  refine ensures_freshId' ?_
  refine (labelNode_counts label? _).next (fun _ h => h) (.refl (P := Named) h₂.tame_opening)
    fun name s₃ h₃ => ?_
  rw [List.nil_append] at h₃
  obtain ⟨hget, hnone, hname, hrefs⟩ := get?_jump s.current.tag label? target s.current.line
  refine ensures_modify (idle_endStatement.next (jump_closed h₂ h₃ ?_ hget hgoal hrefs hnone ?_)
    fun _ s₄ h₄ => ensures_pure h₄)
  · have hjump : ∀ tag, tag = Tag.kwBreak ∨ tag = Tag.kwContinue →
        (tag == .kwBreak || tag == .kwContinue) = true := by
      rintro tag (rfl | rfl) <;> rfl
    exact hjump _ htag
  · rw [hname]
    exact (aim_settled (h₂.targets).symm (h₂.labels).symm _ _).trans haim

/-! ## Switches -/

/-- A clause's node, before its comments: a case, or the first default. -/
structure IsClause (hasDefault : Bool) (data : Node) : Prop where
  quiet : data.Quiet
  tag : data.tag = .kwCase ∨ (data.tag = .kwDefault ∧ hasDefault = false)

theorem clauseHead_counts (hg : Steers g) (hasDefault : Bool) (hs : Tame s) :
    Ensures False (g.clauseHead hasDefault) s fun head s' =>
      Took Operand [] s s' head.2 ∧ IsClause hasDefault head.1 := by
  have hstart : Took Operand [] s s [] := .refl hs
  refine ensures_get ?_
  dsimp only
  split
  · refine idle_advance.next hstart fun _ s₁ h₁ => ?_
    refine (hg.expression false).next (fun _ h => h) h₁ fun test s₂ _ h₂ => ?_
    refine (idle_expect _ _).next h₂ fun _ s₃ h₃ => ensures_pure ⟨h₃, ?_, Or.inl rfl⟩
    exact Node.quiet_of_entries rfl (by simp [Node.leaf]) (by simp [Node.leaf])
  · cases hasDefault with
    | true => exact ensures_fail
    | false =>
      refine idle_advance.next hstart fun _ s₁ h₁ => ?_
      refine (idle_expect _ _).next h₁ fun _ s₂ h₂ => ensures_pure ⟨h₂, ?_, Or.inr ⟨rfl, rfl⟩⟩
      exact Node.quiet_of_entries rfl (by simp [Node.leaf]) (by simp [Node.leaf])
  · exact ensures_fail
  · exact ensures_unexpected

/-- At most one of the clauses is the default. -/
def OneDefault (clauses : List Tree) : Prop :=
  (clauses.filter (·.tag == .kwDefault)).length ≤ 1

theorem OneDefault.snoc {clauses : List Tree} (h : OneDefault clauses) {t : Tree} {data : Node}
    (hdata : IsClause (clauses.any (·.tag == .kwDefault)) data) (ht : t.tag = data.tag) :
    OneDefault (clauses ++ [t]) := by
  rw [OneDefault, List.filter_append, List.length_append]
  rcases hdata.tag with htag | ⟨htag, hnone⟩
  · have hcase : [t].filter (·.tag == .kwDefault) = [] := by simp [ht, htag]
    rw [hcase]
    exact h
  · have hempty : clauses.filter (·.tag == .kwDefault) = [] := by
      simpa [List.filter_eq_nil_iff] using hnone
    rw [hempty]
    exact Nat.le_trans (Nat.add_le_add_left (List.length_filter_le ..) _) (Nat.le_refl 1)

theorem clauseTurn_counts (hg : Steers g) {env : Env} (henv : s₀.env = env)
    (hp : s₀.pendingLabels = []) {clauses : List Tree}
    (h : Took (Aimed env) [] s₀ s clauses ∧ OneDefault clauses) :
    Ensures False (g.clauseTurn clauses) s
      (Turn.Leads (fun ts s' => Took (Aimed env) [] s₀ s' ts ∧ OneDefault ts)
        fun ts s' => Took (Aimed env) [] s₀ s' ts ∧ OneDefault ts) := by
  obtain ⟨h, hone⟩ := h
  refine ensures_ifCheck (fun _ => ensures_pure ⟨h, hone⟩) fun _ => ?_
  refine idle_takeComments.next h fun comments s₁ h₁ => ?_
  refine (clauseHead_counts hg _ h₁.tame).bind fun head s₂ ⟨h₂, hdata⟩ => ?_
  obtain ⟨data, test⟩ := head
  refine ensures_freshId' ?_
  have henv₂ : s₂.opening.env = env :=
    ((h₂.env (h₁.pending hp)).trans (h₁.env hp)).trans henv
  have hp₂ : s₂.opening.pendingLabels = [] := h₂.pending (h₁.pending hp)
  refine (itemsUntil_counts test (.refl (P := Aimed env) h₂.tame_opening)
    fun s' ts h => statement_next hg henv₂ hp₂ h).bind fun statements s₃ ⟨rest, hrest, h₃⟩ => ?_
  subst hrest
  obtain ⟨data', hnode, halike, haimed⟩ := withComments_alike (rfl : PropertyKind.comments.isComments = true)
    comments ⟨s₂.nextId⟩ data (test ++ rest)
  rw [hnode]
  have hchanges : Env.changes data.tag = false := by
    rcases hdata.tag with htag | ⟨htag, -⟩ <;> rw [htag] <;> rfl
  have hjump : (Tree.node ⟨s₂.nextId⟩ data (test ++ rest)).isJump = false := by
    simp [Tree.isJump, Tree.tag, Tree.data, hdata.quiet.tag]
  have hsettled : env.settled = env := by rw [← henv, settled_env hp]
  have hclause : Aimed env (.node ⟨s₂.nextId⟩ data (test ++ rest)) := by
    refine aimed_node hjump hchanges fun c hc => ?_
    rw [hsettled]
    exact (List.mem_append.mp hc).elim (fun hc => (h₂.all c hc).enclosed env) (h₃.all c)
  have hnew : Took (Aimed env) [] s₁ s₃ [.node ⟨s₂.nextId⟩ data' (test ++ rest)] :=
    h₂.close_quiet h₃ (halike.quiet hdata.quiet) (haimed _ hclause)
  exact ensures_pure ⟨h₁.trans hnew, hone.snoc hdata halike.tag⟩

theorem clauses_count (hg : Steers g) (hs : Tame s) (hp : s.pendingLabels = []) :
    Ensures False g.clauses s fun clauses s' =>
      Took (Aimed s.env) [] s s' clauses ∧ OneDefault clauses :=
  ensures_iterate (I := fun ts s' => Took (Aimed s.env) [] s s' ts ∧ OneDefault ts)
    (fun _ _ h => clauseTurn_counts hg rfl hp h) _ ⟨.refl hs, Nat.zero_le 1⟩

theorem switchNode_entries (line : Nat) (clauses : List Tree) :
    (switchNode line clauses).properties.entries
      = (.cases, .nodes ((clauses.filter (·.tag == .kwCase)).map Tree.id))
        :: ((clauses.find? (·.tag == .kwDefault)).map fun c =>
          (PropertyKind.defaultClause, PropertyValue.node c.id)).toList := by
  cases h : clauses.find? (·.tag == .kwDefault) <;>
    simp [switchNode, h, Node.put, Node.leaf, Properties.put, Properties.putIf, Properties.putIn]

theorem switchNode_facts (line : Nat) (clauses : List Tree) :
    (switchNode line clauses).tag = .kwSwitch
    ∧ (switchNode line clauses).properties.get? .cases
      = some (.nodes ((clauses.filter (·.tag == .kwCase)).map Tree.id))
    ∧ (switchNode line clauses).properties.get? .defaultClause
      = (clauses.find? (·.tag == .kwDefault)).map (fun c => .node c.id)
    ∧ (switchNode line clauses).properties.get? .jumps = none
    ∧ ∀ r ∈ (switchNode line clauses).refs, r ∈ Tree.ids clauses := by
  have hmem : ∀ c ∈ clauses, c.id ∈ Tree.ids clauses := fun c hc => by
    obtain ⟨before, after, rfl⟩ := List.append_of_mem hc
    rw [Tree.ids_append, ← List.singleton_append, Tree.ids_append, Tree.ids_singleton]
    simp
  refine ⟨rfl, ?_, ?_, ?_, fun r hr => ?_⟩
  · simp [Properties.get?, switchNode_entries]
  · cases h : clauses.find? (·.tag == .kwDefault) <;>
      simp [Properties.get?, switchNode_entries, h]
  · cases h : clauses.find? (·.tag == .kwDefault) <;>
      simp [Properties.get?, switchNode_entries, h]
  · rw [Node.refs, switchNode_entries, List.flatMap_cons, List.mem_append] at hr
    rcases hr with hr | hr
    · obtain ⟨c, hc, rfl⟩ := List.mem_map.mp hr
      exact hmem c (List.mem_filter.mp hc).1
    · cases h : clauses.find? (·.tag == .kwDefault) with
      | none => simp [h] at hr
      | some c =>
        obtain rfl : r = c.id := by simpa [h, PropertyValue.refs] using hr
        exact hmem c (List.mem_of_find?_eq_some h)

theorem switched_switchNode (id : NodeId) (line : Nat) {value : Tree} {clauses : List Tree}
    (hvalue : value.tag ≠ .kwCase ∧ value.tag ≠ .kwDefault) (hone : OneDefault clauses) :
    (Tree.node id (switchNode line clauses) (value :: clauses)).Switched := by
  intro _
  obtain ⟨-, hcases, hdefault, -, -⟩ := switchNode_facts line clauses
  have hcase : (value.tag == .kwCase) = false := by simpa using hvalue.1
  have hdef : (value.tag == .kwDefault) = false := by simpa using hvalue.2
  refine ⟨?_, ?_, ?_⟩
  · simpa [Tree.data, Tree.children, List.filter_cons, hcase] using hcases
  · simpa [Tree.data, Tree.children, List.find?_cons, hdef] using hdefault
  · simpa [Tree.children, List.filter_cons, hdef, OneDefault] using hone

theorem switchStatement_counts (hg : Steers g) {pending : List NodeId} (hs : Tame s)
    (hp : s.pendingLabels = []) : Ensures False g.switchStatement s fun t s' =>
      Took (Aimed (s.behind pending)) [] s s' [t] := by
  refine idle_advance.next (.refl (P := Operand) hs) fun opening s₁ h₁ => ?_
  refine ensures_freshId' ?_
  have hopening := h₁.opening (Q := Aimed ((s.behind pending).within ⟨s₁.nextId⟩ false))
  refine (idle_expect _ _).next hopening fun _ s₂ h₂ => ?_
  refine (hg.expression false).next operand_aimed h₂ fun value s₃ hvalue h₃ => ?_
  refine (idle_expect _ _).next h₃ fun _ s₄ h₄ => ?_
  refine (idle_expect _ _).next h₄ fun _ s₅ h₅ => ?_
  have hp₅ : s₅.pendingLabels = [] := h₅.pending (h₁.pending hp)
  have henv : (s₅.within ⟨s₁.nextId⟩ false []).env
      = (s.behind pending).within ⟨s₁.nextId⟩ false := by
    rw [State.within_env hp₅]
    simp only [State.behind, Env.within, State.env, h₅.targets, h₅.labels, State.opening,
      h₁.targets, h₁.labels]
    rfl
  refine (withTarget_counts (f := fun ts => ts) (R := OneDefault) h₅ fun htame => ?_).bind
    fun clauses s₆ hread => ?_
  · have hclauses := clauses_count hg htame hp₅
    rwa [henv] at hclauses
  obtain ⟨h₆, hone⟩ := hread
  refine idle_takeComments.next h₆ fun comments s₇ h₇ => ?_
  refine (idle_expect _ _).next h₇ fun _ s₈ h₈ => ?_
  obtain ⟨data, hnode, halike, haimed⟩ := withComments_alike
    (rfl : PropertyKind.trailingComments.isComments = true) comments ⟨s₁.nextId⟩ (switchNode opening.line clauses) (value :: clauses)
  rw [hnode]
  obtain ⟨htag, -, -, hnone, hrefs⟩ := switchNode_facts opening.line clauses
  have hswitched := halike.switched
    (switched_switchNode ⟨s₁.nextId⟩ opening.line hvalue.noClause hone)
  have hswitch : Aimed (s.behind pending)
      (.node ⟨s₁.nextId⟩ (switchNode opening.line clauses) (value :: clauses)) := by
    refine .intro (fun hj => ?_) ?_
    · simp [Tree.isJump, Tree.tag, Tree.data, htag] at hj
    · have henter : (s.behind pending).enter (.node ⟨s₁.nextId⟩
          (switchNode opening.line clauses) (value :: clauses))
            = (s.behind pending).within ⟨s₁.nextId⟩ false := Env.enter_switch _ htag
      rw [henter]
      exact h₈.all
  refine withJumps_counts h₁ h₈ ?_ ?_ (fun r hr => ?_) (halike.jumps.trans hnone) hswitched
    (haimed _ hswitch)
  · simp [halike.tag, htag]
  · simp [Tree.isJump, Tree.tag, Tree.data, halike.tag, htag]
  · rw [List.nil_append, ← List.singleton_append, Tree.ids_append]
    exact List.mem_append_right _ (hrefs r (halike.refs r hr))

/-! ## Labels and expressions -/

/-- A name that turned out to be a label was no part of a tree. -/
theorem Took.dropped {t : Tree} (h : Took P [] s₀ s [t]) (ht : Named t) : Took Q [] s₀ s [] := by
  obtain ⟨hjumps, hfunctions⟩ := jumps_named (List.forall_mem_singleton.mpr ht)
  have hsame : s.scope.functions = s₀.scope.functions ++ Tree.directFunctions [] :=
    h.functions.trans (congrArg (s₀.scope.functions ++ ·) hfunctions)
  refine ⟨h.targets, h.labels, h.function?, h.pending, hsame, by simp, h.covers, ?_, by simp⟩
  have htally := h.tally
  refine ⟨htally.le, by simp [Tree.ids, Tree.preorderAll], by simp [Tree.ids, Tree.preorderAll],
    ?_, by simp [Tree.jumps, Tree.preorderAll], by simp [Tree.preorderAll],
    by simp [Tree.preorderAll], by simp [Tree.preorderAll]⟩
  rw [htally.jumps, hjumps]
  rfl

/-- The state behind a label. -/
def State.labelled (s : State) (name : String) (id : NodeId) (pending : List NodeId) : State :=
  { s with labels := ⟨name, id, none⟩ :: s.labels, pendingLabels := pending ++ [id] }

theorem labelled_counts (hg : Steers g) {name : String} {id : NodeId} {pending : List NodeId}
    {env : Env} (henv : (s.labelled name id pending).env = env)
    (h : Took (Aimed env) [id] s₁ s cs) :
    Ensures False (g.statement false) (s.labelled name id pending) fun t s' =>
      Took (Aimed env) [id] s₁ { s' with labels := s.labels } (cs ++ [t]) := by
  have hgoals : ∀ i ∈ (s.labelled name id pending).goals, i ∈ [id] ++ s.goals := by
    intro i hi
    simp only [State.goals, State.labelled, List.map_cons, List.filterMap_cons,
      List.mem_append, List.mem_cons] at hi ⊢
    rcases hi with (hi | rfl | hi) | hi
    · exact Or.inr (Or.inl (Or.inl hi))
    · exact Or.inl (Or.inl rfl)
    · exact Or.inr (Or.inl (Or.inr hi))
    · exact Or.inr (Or.inr hi)
  have hknown : ∀ i ∈ (s.labelled name id pending).known, i ∈ [id] ++ s.known := by
    intro i hi
    rcases List.mem_append.mp hi with hi | hi
    · rw [State.known, ← List.append_assoc]
      exact List.mem_append_left _ (hgoals i hi)
    · exact List.mem_append_right _ (List.mem_append_right _ hi)
  have htame : Tame (s.labelled name id pending) :=
    ⟨fun i hi => h.covered.known i (hknown i hi), h.covered.jumps⟩
  refine (hg.statement false _ htame).mono fun t s' hread => h.trans ?_
  obtain ⟨hb, hpending⟩ := hread
  rw [henv] at hb
  exact ⟨hb.targets, rfl, hb.function?, fun _ => hpending, hb.functions, hb.nested, h.covered,
    hb.tally.mono hgoals hknown, hb.all⟩

theorem labelledStatement_counts (hg : Steers g) {name : String} {line : Nat}
    {pending : List NodeId} (h : Took Operand [] s₀ s []) :
    Ensures False (g.labelledStatement name line pending) s fun t s' =>
      Took (Aimed (s₀.behind pending)) [] s₀ s' [t] := by
  have hafter : Ensures False (do
      let _ ← advance
      let id ← freshId
      let nameNode ← makeNode (.identifier name line) []
      let s ← get
      set { s with labels := ⟨name, id, none⟩ :: s.labels, pendingLabels := pending ++ [id] }
      let body ← g.statement false
      modify ({ · with labels := s.labels })
      withJumps (.node id (.label name line) [nameNode, body])) s fun t s' =>
        Took (Aimed (s₀.behind pending)) [] s₀ s' [t] := by
    refine idle_advance.next h fun _ s₁ h₁ => ?_
    refine ensures_freshId' ?_
    have hopening := h₁.opening
      (Q := Aimed ((s₀.behind pending).behind name ⟨s₁.nextId⟩))
    refine (counts_named name line).next (fun _ h => h.1.enclosed _) hopening
      fun nameNode s₂ _ h₂ => ?_
    refine ensures_get (ensures_set ?_)
    have henv : (s₂.labelled name ⟨s₁.nextId⟩ pending).env
        = (s₀.behind pending).behind name ⟨s₁.nextId⟩ := by
      simp only [State.labelled, State.env, State.behind, Env.behind, h₂.targets, h₂.labels,
        State.opening, h₁.targets, h₁.labels]
    refine (labelled_counts hg henv h₂).bind fun body s₃ h₃ => ensures_modify ?_
    have hlabel : Aimed (s₀.behind pending)
        (.node ⟨s₁.nextId⟩ (.label name line) [nameNode, body]) := by
      refine .intro (fun hj => ?_) ?_
      · simp [Tree.isJump, Tree.tag, Tree.data, Node.label, Node.leaf, Node.put] at hj
      · rw [Env.enter_label _ (rfl : Tree.label? _ = some name)]
        exact h₃.all
    exact withJumps_counts h₁ h₃ (by simp [Node.label, Node.put, Node.leaf]) rfl (fun r hr => by
      simp [Node.label, Node.put, Node.leaf, Node.refs, Properties.put, Properties.putIn,
        PropertyValue.refs] at hr) rfl
      (fun htag => by simp [Tree.tag, Tree.data, Node.label, Node.leaf, Node.put] at htag) hlabel
  refine ensures_get ?_
  split
  · exact ensures_failAt
  · exact hafter

theorem simpleStatement_counts (hg : Steers g) {pending : List NodeId} (hs : Tame s)
    (hp : s.pendingLabels = []) : Ensures False (g.simpleStatement pending) s fun t s' =>
      Took (Aimed (s.behind pending)) [] s s' [t] := by
  refine ensures_get ?_
  dsimp only
  split
  · exact ensures_fail
  refine ensures_get ?_
  refine (expressionOf_counts hg false).next (fun _ h => h) (.refl (P := Operand) hs)
    fun value s₁ hvalue h₁ => ?_
  refine ensures_check ?_
  split
  · next hlabel =>
    have hnamed : Named value := ⟨hvalue, by simp_all⟩
    have hdropped : Took Operand [] s s₁ [] := h₁.dropped hnamed
    split
    · exact labelledStatement_counts hg hdropped
    · have herase : Idle (modifyScope fun scope =>
          { scope with uses := scope.uses.erase s.current.shown }) :=
        idle_modifyScope fun _ => ⟨rfl, rfl⟩
      exact herase.next hdropped fun _ s₂ h₂ => labelledStatement_counts hg h₂
  · have hmake : ∀ s', Took Operand [] s s' [value] →
        Ensures False (endStatement >>= fun _ =>
          makeNode (.leaf .exprStatement s.current.line) [value]) s' fun t s'' =>
            Took (Aimed (s.behind pending)) [] s s'' [t] := fun s' h' =>
      idle_endStatement.next (h'.mono operand_aimed) fun _ s'' h'' =>
        makeNode_statement h'' hp (Node.quiet_leaf rfl _) rfl
    split
    · exact hmake s₁ h₁
    · exact (idle_warn _ _).next h₁ fun _ s₂ h₂ => hmake s₂ h₂

theorem bareStatement_counts (hg : Steers g) {top : Bool} {pending : List NodeId} (hs : Tame s)
    (hp : s.pendingLabels = []) : Ensures False (g.bareStatement top pending) s fun t s' =>
      Took (Aimed (s.behind pending)) [] s s' [t] := by
  refine ensures_get ?_
  dsimp only
  split
  · exact (functionOf_counts hg _ s hs).mono fun t s' h => h.mono operand_aimed
  · exact (block_counts hg hs hp).mono fun t s' h =>
      h.mono fun _ ht => ht _ (State.settled_behind hp pending)
  · refine (declarations_counts hg false).next (fun _ h => h _)
      (.refl (P := Aimed (s.behind pending)) hs)
      fun vars s₁ _ h₁ => ?_
    exact idle_endStatement.next h₁ fun _ s₂ h₂ => ensures_pure h₂
  · refine idle_advance.next (.refl (P := Aimed s.env) hs) fun _ s₁ h₁ => ?_
    exact makeNode_statement h₁ hp (Node.quiet_leaf rfl _) rfl
  · exact ifStatement_counts hs hp hg
  · exact whileStatement_counts hs hp hg
  · exact doStatement_counts hs hp hg
  · exact forStatement_counts hg hs hp
  · next htag => exact jumpStatement_counts hs (Or.inl htag)
  · next htag => exact jumpStatement_counts hs (Or.inr htag)
  · exact returnStatement_counts hs hp hg
  · exact withStatement_counts hs hp hg
  · exact switchStatement_counts hg hs hp
  · exact throwStatement_counts hs hp hg
  · exact tryStatement_counts hg hs hp
  · exact simpleStatement_counts hg hs hp

end ScriptPress.Grammar
