import ScriptPress.Proofs.Reading.Expression

/-! # Reading statements is sound

Every statement that is read is well formed in the context of its state, and its reading leaves the
trace of the tree. A statement begins by taking the comments before it, and its labels are in front
of nothing else from there on.
-/
namespace ScriptPress.Grammar
variable {d : Dialect} {g : Grammar} {s s₀ s₁ : State} {α : Type}

/-! ## Contexts of states -/

theorem ctx_settle (s : State) : s.settle.ctx = s.ctx.settled := by
  have hlabels : s.settle.labels.map (fun l => (l.name, s.settle.role l))
      = (s.labels.map fun l => (l.name, s.role l)).map fun l => (l.1, l.2.settled) := by
    rw [List.map_map]
    refine List.map_congr_left fun l _ => ?_
    simp only [Function.comp_apply, State.role, State.settle]
    obtain ⟨name, id, loop?⟩ := l
    by_cases hfront : id ∈ s.pendingLabels
    · cases loop? <;> simp [hfront, LabelRole.settled]
    · cases loop? <;> simp [hfront, LabelRole.settled]
  unfold State.ctx Ctx.settled
  rw [hlabels]
  rfl

/-- Inside a loop, the labels right before it stand for the loop. -/
theorem ctx_loop (hk : Kept s.settle s₁) (id : NodeId) :
    (s₁.within id true s.pendingLabels).ctx = s.ctx.inLoop := by
  have hpending : s₁.pendingLabels = [] := hk.pendingLabels
  have hlabels : s₁.labels = s.labels := hk.labels
  have hfunction : s₁.scope.function? = s.scope.function? := hk.function?
  unfold State.ctx Ctx.inLoop
  simp only [State.within, if_true, hlabels, hfunction, List.map_map, Ctx.mk.injEq, true_and,
    List.isEmpty_cons, Bool.not_false, List.any_cons, Bool.true_or]
  refine List.map_congr_left fun l _ => ?_
  simp only [Function.comp_apply, State.role, LabelEntry.before, hpending]
  obtain ⟨name, id, loop?⟩ := l
  by_cases hfront : id ∈ s.pendingLabels
  · cases loop? <;> simp [hfront, LabelRole.inLoop]
  · cases loop? <;> simp [hfront, LabelRole.inLoop]

theorem ctx_switch (hk : Kept s.settle s₁) (id : NodeId) :
    (s₁.within id false []).ctx = s.ctx.inSwitch := by
  have hctx : s₁.ctx = s.ctx.settled := hk.ctx.trans (ctx_settle s)
  unfold Ctx.inSwitch
  rw [← hctx]
  simp only [State.within, State.ctx, State.role, List.isEmpty_cons, Bool.not_false,
    List.any_cons, Bool.false_or, Bool.false_eq_true, if_false]

theorem role?_ctx (s : State) (name : String) :
    s.ctx.role? name = (labelNamed? name s).map s.role := by
  simp only [Ctx.role?, State.ctx, labelNamed?, List.find?_map, Option.map_map]
  rfl

theorem reaches_settled (c : Ctx) (tag : Tag) (label? : Option String) :
    c.settled.reaches tag label? = c.reaches tag label? := by
  cases label? with
  | none => rfl
  | some name =>
    have hrole : c.settled.role? name = (c.role? name).map LabelRole.settled := by
      simp only [Ctx.role?, Ctx.settled, List.find?_map, Option.map_map]
      rfl
    simp only [Ctx.reaches, hrole]
    cases c.role? name with
    | none => rfl
    | some role => cases role <;> rfl

/-- A new label is in front of the next statement; the others keep their roles. -/
theorem ctx_labelled (hlabels : ∀ l ∈ s₁.labels, l.id.index < s₁.nextId)
    (hk : Kept s.settle s₁) (name : String) {id : NodeId}
    (hid : s₁.nextId ≤ id.index) {s₂ : State} (hk' : Kept s₁ s₂) :
    ({ s₂ with labels := ⟨name, id, none⟩ :: s₂.labels,
               pendingLabels := s.pendingLabels ++ [id] } : State).ctx = s.ctx.labelled name := by
  have hsame : s₂.labels = s.labels := hk'.labels.trans hk.labels
  have htargets : s₂.targets = s.targets := hk'.targets.trans hk.targets
  have hfunction : s₂.scope.function? = s.scope.function? := hk'.function?.trans hk.function?
  unfold State.ctx Ctx.labelled
  simp only [hsame, htargets, hfunction, List.map_cons, Ctx.mk.injEq, true_and,
    List.cons.injEq, Prod.mk.injEq]
  refine ⟨by simp [State.role], List.map_congr_left fun l hl => ?_⟩
  have hlt : l.id.index < s₁.nextId := hlabels l (by rw [hk.labels]; exact hl)
  have hne : l.id ≠ id := by
    rintro rfl
    omega
  simp [State.role, hne]

/-! ## Inside statements -/

/-- A body inside a statement, whose labels are in front of nothing any more. -/
theorem body_passes (hg : Sound d g) (hk : Kept s.settle s₁) (hs : Sane d s₁) :
    Ensures False (g.statement false) s₁ fun t s' =>
      Formed d (.statement s.ctx.settled false) t ∧ Passed d s₁ s' (t.trace false)
        ∧ (t.endsOpen = true → s'.current.tag ≠ .kwElse) := by
  refine (hg.statement false s₁ hs).mono fun t s' ⟨ht, hpassed, hopen⟩ => ?_
  rw [hk.ctx, ctx_settle] at ht
  rw [settle_eq hk.pendingLabels] at hpassed
  exact ⟨ht, hpassed, hopen⟩

theorem block_passes (hg : Sound d g) {construct : String} (hk : Kept s.settle s₁)
    (hs : Sane d s₁) : Ensures False (g.block construct) s₁ fun t s' =>
      Formed d (.block s.ctx.settled false) t ∧ Passed d s₁ s' (t.trace false) := by
  refine ensures_expect hs fun s₂ _ h₂ => ?_
  refine (blockAfterBrace_passes hg h₂.sane
    (h₂.kept.pendingLabels.trans hk.pendingLabels)).mono fun t s' ⟨ht, hpassed⟩ => ?_
  rw [h₂.kept.ctx, hk.ctx, ctx_settle] at ht
  exact ⟨ht, (h₂.trans hpassed).cast (Trace.empty_append _)⟩

/-- What is read inside a target leaves the targets and labels as they were. -/
theorem withTarget_passes {id : NodeId} {isLoop : Bool} {pending : List NodeId}
    {body : Reading α} {P : α → Token → Prop} {T : α → Trace} (hs : Sane d s₁)
    (hbody : Sane d (s₁.within id isLoop pending) →
      Ensures False body (s₁.within id isLoop pending) fun a s' =>
        P a s'.current ∧ Passed d (s₁.within id isLoop pending) s' (T a)) :
    Ensures False (withTarget id isLoop pending body) s₁ fun a s' =>
      P a s'.current ∧ Passed d s₁ s' (T a) := by
  refine ensures_get (ensures_set ?_)
  have hwithin : Sane d (s₁.within id isLoop pending) := by
    refine ⟨⟨hs.dialect, hs.comments, hs.heard, fun l hl => ?_⟩, hs.current, hs.slash⟩
    simp only [State.within] at hl
    split at hl
    · obtain ⟨l', hl', rfl⟩ := List.mem_map.mp hl
      have hid : (l'.before pending id).id = l'.id := by
        unfold LabelEntry.before
        split <;> rfl
      rw [hid]
      exact hs.labels l' hl'
    · exact hs.labels l hl
  refine (hbody hwithin).bind fun a s₂ ⟨ha, h₂⟩ => ?_
  refine ensures_modify (ensures_pure ⟨ha, ?_⟩)
  have hid : s₁.nextId ≤ s₂.nextId := h₂.kept.nextId
  have hdialect : s₂.lexer.dialect = s₁.lexer.dialect := h₂.kept.dialect
  have hpending : s₂.pendingLabels = s₁.pendingLabels := h₂.kept.pendingLabels
  have hfunction : s₂.scope.function? = s₁.scope.function? := h₂.kept.function?
  refine ⟨⟨?_, hid⟩, ⟨⟨h₂.sane.dialect, h₂.sane.comments, h₂.sane.heard, fun l hl => ?_⟩,
    h₂.sane.current, h₂.sane.slash⟩, h₂.needs, h₂.heard⟩
  · simp only [State.frame, hdialect, hpending, hfunction]
  · exact Nat.lt_of_lt_of_le (hs.labels l hl) hid

/-- The body of a loop. -/
theorem loopBody_passes (hg : Sound d g) {id : NodeId} (hk : Kept s.settle s₁) (hs : Sane d s₁) :
    Ensures False (withTarget id true s.pendingLabels (g.statement false)) s₁ fun t s' =>
      (Formed d (.statement s.ctx.inLoop false) t
        ∧ (t.endsOpen = true → s'.current.tag ≠ .kwElse)) ∧ Passed d s₁ s' (t.trace false) := by
  refine withTarget_passes (P := fun t token => Formed d (.statement s.ctx.inLoop false) t
    ∧ (t.endsOpen = true → token.tag ≠ .kwElse)) hs fun hwithin => ?_
  refine (hg.statement false _ hwithin).mono fun t s' ⟨ht, hpassed, hopen⟩ => ?_
  rw [ctx_loop hk] at ht
  rw [settle_eq (show (s₁.within id true s.pendingLabels).pendingLabels = [] from
    hk.pendingLabels)] at hpassed
  exact ⟨⟨ht, hopen⟩, hpassed⟩

theorem ensures_withJumps {strict : Prop} {id : NodeId} {data : Node} {children : List Tree}
    {Q : Tree → State → Prop} (hq : ∀ data', data.Agrees data' → Q (.node id data' children) s) :
    Ensures strict (withJumps (.node id data children)) s Q := by
  refine ensures_get (ensures_pure ?_)
  split
  · exact hq data (.refl data)
  · exact hq _ (Node.agrees_put rfl)

theorem endStatement_passes (hs : Sane d s) :
    Ensures False endStatement s fun _ s' => Passed d s s' {} := by
  refine ensures_get ?_
  split
  · exact ensures_advance hs.toSteady fun s₁ h₁ => ensures_pure h₁
  · split
    · refine ensures_omitSemicolon hs fun s₁ _ h₁ => ?_
      exact ensures_warn h₁.sane fun s₂ _ h₂ => ensures_pure (h₁.trans h₂)
    · exact ensures_fail

/-! ## Statements before their comments -/

/-- A statement was read from inside, without the comments before it. -/
structure Bare (d : Dialect) (s s₁ : State) (top : Bool) (t : Tree) (s' : State) : Prop where
  formed : Formed d (.statement s.ctx top) t
  leading : t.data.leading = []
  passed : Passed d s₁ s' (t.trace false)
  closed : t.endsOpen = true → s'.current.tag ≠ .kwElse

/-- A reader for the statements of one sort. -/
def ReadsBare (d : Dialect) (s s₁ : State) (top : Bool) (m : Reading Tree) : Prop :=
  Ensures False m s₁ (Bare d s s₁ top)

theorem endsOpen_tag {id : NodeId} {data : Node} {children : List Tree}
    (h : [Tag.kwIf, .kwWhile, .kwWith, .kwFor, .forIn, .label].contains data.tag = false) :
    (Tree.node id data children).endsOpen = false := by
  rw [Tree.endsOpen]
  split <;> simp_all

theorem condition_passes (hg : Sound d g) {keyword : Tag} (hs : Sane d s) :
    Ensures False (g.condition keyword) s fun t s' =>
      Formed d .expr t ∧ Passed d s s' (t.trace false) := by
  refine ensures_expect hs fun s₁ _ h₁ => ?_
  refine (hg.expression false s₁ h₁.sane).bind fun t s₂ ⟨ht, h₂⟩ => ?_
  have hlast : ∀ s₃, Passed d s₂ s₃ {} →
      Ensures False (expect .rightParen .parenAfterCondition >>= fun _ => pure t) s₃ fun t s' =>
        Formed d .expr t ∧ Passed d s s' (t.trace false) := by
    intro s₃ h₃
    refine ensures_expect h₃.sane fun s₄ _ h₄ => ensures_pure ⟨ht, ?_⟩
    exact ((h₁.trans h₂).trans (h₃.trans h₄)).cast (by simp)
  split
  · exact ensures_warn h₂.sane fun s₃ _ h₃ => hlast s₃ h₃
  · exact hlast s₂ (.refl h₂.sane)

theorem ifStatement_reads (hg : Sound d g) {top : Bool} (hk : Kept s.settle s₁) (hs : Sane d s₁) :
    ReadsBare d s s₁ top g.ifStatement := by
  refine ensures_advance hs.toSteady fun s₂ h₂ => ?_
  refine (condition_passes hg h₂.sane).bind fun test s₃ ⟨htest, h₃⟩ => ?_
  have hk₃ := hk.trans (h₂.kept.trans h₃.kept)
  refine (body_passes hg hk₃ h₃.sane).bind fun yes s₄ ⟨hyes, h₄, hopen⟩ => ?_
  refine ensures_accept h₄.sane (fun s₅ htag h₅ => ?_) fun htag => ?_
  · have hclosed : yes.endsOpen = false := by
      by_contra h
      exact hopen (by simpa using h) htag
    have hk₅ := hk₃.trans (h₄.kept.trans h₅.kept)
    refine (body_passes hg hk₅ h₅.sane).bind fun no s₆ ⟨hno, h₆, hopen'⟩ => ensures_let ?_
    refine ensures_makeNode_last h₆.sane fun id s₇ hcurrent h₇ => ?_
    refine ⟨.ifElse (Node.plain_leaf _ _).remarked htest hyes hclosed hno, rfl,
      (((h₂.trans h₃).trans h₄).trans ((h₅.trans h₆).trans h₇)).cast ?_, fun h => ?_⟩
    · rw [(Node.plain_leaf _ _).trace_quiet rfl]
      simp [Trace.sum]
    · rw [hcurrent]
      exact hopen' (by simpa [Tree.endsOpen, Tree.lastEndsOpen, Node.leaf] using h)
  · refine ensures_let (ensures_makeNode_last h₄.sane fun id s₅ hcurrent h₅ => ?_)
    refine ⟨.ifThen (Node.plain_leaf _ _).remarked htest hyes, rfl,
      (((h₂.trans h₃).trans h₄).trans h₅).cast ?_, fun _ => ?_⟩
    · rw [(Node.plain_leaf _ _).trace_quiet rfl]
      simp [Trace.sum]
    · rwa [hcurrent]

theorem whileStatement_reads (hg : Sound d g) {top : Bool} (hk : Kept s.settle s₁)
    (hs : Sane d s₁) : ReadsBare d s s₁ top (g.whileStatement s.pendingLabels) := by
  refine ensures_advance hs.toSteady fun s₂ h₂ => ?_
  refine ensures_freshId h₂.sane fun id s₃ _ _ _ h₃ => ?_
  refine (condition_passes hg h₃.sane).bind fun test s₄ ⟨htest, h₄⟩ => ?_
  have hk₄ := hk.trans (h₂.kept.trans (h₃.kept.trans h₄.kept))
  refine (loopBody_passes hg hk₄ h₄.sane).bind fun body s₅ ⟨⟨hbody, hopen⟩, h₅⟩ => ?_
  refine ensures_withJumps fun data' hdata => ?_
  have hplain := (Node.plain_leaf .kwWhile s₁.current.line).of_agrees hdata
  refine ⟨.while hplain.remarked htest hbody, hplain.leading,
    ((h₂.trans h₃).trans (h₄.trans h₅)).cast ?_, fun h => hopen ?_⟩
  · rw [hplain.trace_quiet rfl]
    simp [Trace.sum]
  · have htag : data'.tag = .kwWhile := congrArg Core.tag hplain.core
    simpa [Tree.endsOpen, Tree.lastEndsOpen, htag] using h

theorem doStatement_reads (hg : Sound d g) {top : Bool} (hk : Kept s.settle s₁)
    (hs : Sane d s₁) (htag : s₁.current.tag = .kwDo) :
    ReadsBare d s s₁ top (g.doStatement s.pendingLabels) := by
  have hsign := hs.keyword htag rfl fun _ => rfl
  refine ensures_advance hs.toSteady fun s₂ h₂ => ?_
  refine ensures_freshId h₂.sane fun id s₃ _ _ _ h₃ => ?_
  have hk₃ := hk.trans (h₂.kept.trans h₃.kept)
  refine (loopBody_passes hg hk₃ h₃.sane).bind fun body s₄ ⟨⟨hbody, _⟩, h₄⟩ => ?_
  refine ensures_expect h₄.sane fun s₅ _ h₅ => ?_
  refine (condition_passes hg h₅.sane).bind fun test s₆ ⟨htest, h₆⟩ => ?_
  have hpassed := ((h₂.trans h₃).trans h₄).trans (h₅.trans h₆)
  have hlast : ∀ s₇, Passed d s₆ s₇ {} → Ensures False
      (withJumps (.node id (.leaf .kwDo s₁.current.line) [body, test])) s₇
      (Bare d s s₁ top) := by
    intro s₇ h₇
    refine ensures_withJumps fun data' hdata => ?_
    have hplain := (Node.plain_leaf .kwDo s₁.current.line).of_agrees hdata
    have htag' : data'.tag = .kwDo := congrArg Core.tag hplain.core
    refine ⟨.doWhile hplain.remarked hsign hbody htest, hplain.leading,
      (hpassed.trans h₇).cast ?_, fun h => ?_⟩
    · rw [hplain.trace_quiet rfl]
      simp [Trace.sum]
    · rw [endsOpen_tag (by rw [htag']; rfl)] at h
      cases h
  refine ensures_accept h₆.sane (fun s₇ _ h₇ => hlast s₇ h₇) fun _ => ?_
  exact hlast s₆ (.refl h₆.sane)

/-! ## Declarations and loops over headers -/

theorem ensures_declare (hs : Sane d s) {name : String} {line : Nat} {f : Unit → Reading α}
    {Q : α → State → Prop} (hf : ∀ s', Passed d s s' {} → Ensures False (f ()) s' Q) :
    Ensures False (declare name line >>= f) s Q := by
  refine Ensures.bind (P := fun _ s' => Passed d s s' {}) ?_ fun _ s' hs' => hf s' hs'
  refine ensures_get ?_
  split
  · exact Passed.of_same hs rfl rfl rfl rfl ⟨rfl, Nat.le_refl _⟩ (by simp [State.needs]) rfl
  · exact Passed.of_same hs rfl rfl rfl rfl ⟨rfl, Nat.le_refl _⟩ (by simp [State.needs]) rfl

theorem declaration_passes (hg : Sound d g) {noIn : Bool} (hs : Sane d s) :
    Ensures False (g.declaration noIn) s fun t s' =>
      Formed d .declared t ∧ Passed d s s' (t.trace true) := by
  refine (declaredName_passes hs).bind fun (name, line) s₁ ⟨hname, h₁⟩ => ?_
  refine ensures_declare h₁.sane fun s₂ h₂ => ?_
  refine ensures_freshId h₂.sane fun id s₃ _ _ _ h₃ => ?_
  have hplain := Node.plain_identifier name line
  refine ensures_get ?_
  dsimp only
  split
  · refine ensures_advance h₃.sane.toSteady fun s₄ h₄ => ?_
    refine (hg.assignment noIn s₄ h₄.sane).bind fun value s₅ ⟨hvalue, h₅⟩ => ensures_pure ?_
    refine ⟨.initialised hplain hname hvalue,
      ((h₁.trans h₂).trans ((h₃.trans h₄).trans h₅)).cast ?_⟩
    rw [hplain.trace rfl, Tree.traces_cons, Tree.traces_nil]
    simp [Core.needs, Core.names, Outline.callsEval, Needs.append_def, Trace.append_def]
  · refine ensures_pure ⟨.declared hplain hname, (h₁.trans (h₂.trans h₃)).cast ?_⟩
    rw [hplain.trace rfl, Tree.traces_nil]
    simp [Core.needs, Outline.callsEval, Needs.append_def]

theorem declarations_pass (hg : Sound d g) {noIn : Bool} (hs : Sane d s) :
    Ensures False (g.declarations noIn) s fun t s' => ∃ id data names, t = .node id data names
      ∧ data.Plain { tag := .kwVar } ∧ names ≠ [] ∧ (∀ t ∈ names, Formed d .declared t)
      ∧ Passed d s s' (t.trace false) := by
  refine ensures_advance hs.toSteady fun s₁ h₁ => ?_
  refine (itemsBetweenCommas_passes h₁.sane fun s' _ hs' => declaration_passes hg hs').bind
    fun names s₂ ⟨hnames, h₂⟩ => ?_
  refine ensures_makeNode_last h₂.passed.sane fun id s₃ _ h₃ => ?_
  have hplain := Node.plain_leaf .kwVar s.current.line
  refine ⟨id, _, names, rfl, hplain, hnames, h₂.all, ((h₁.trans h₂.passed).trans h₃).cast ?_⟩
  rw [hplain.trace_parts rfl rfl rfl, Tree.traces_eq_sum names fun _ _ => rfl]
  simp

theorem headerPart_passes {before : Tag} {part : Reading Tree} {form : Form} (hs : Sane d s)
    (hempty : ∀ {id data}, data.Plain { tag := .empty } → Formed d form (.node id data []))
    (hpart : Ensures False part s fun t s' => Formed d form t ∧ Passed d s s' (t.trace false)) :
    Ensures False (headerPart before part) s fun t s' =>
      Formed d form t ∧ Passed d s s' (t.trace false) := by
  refine ensures_get ?_
  dsimp only
  split
  · refine ensures_makeNode_last hs fun id s₁ _ h₁ => ?_
    have hplain := Node.plain_leaf .empty s.current.line
    refine ⟨hempty hplain, h₁.cast ?_⟩
    rw [hplain.trace_quiet rfl]
    rfl
  · exact hpart

/-- The part of a header that may be an expression. -/
theorem expressionPart_passes (hg : Sound d g) {before : Tag} (hs : Sane d s) :
    Ensures False (headerPart before (g.expression false)) s fun t s' =>
      Formed d .part t ∧ Passed d s s' (t.trace false) :=
  headerPart_passes hs .noPart ((hg.expression false s hs).mono fun _ _ ⟨ht, h⟩ => ⟨.part ht, h⟩)

theorem forStart_passes (hg : Sound d g) (hs : Sane d s) :
    Ensures False g.forStart s fun t s' => Formed d .start t ∧ Passed d s s' (t.trace false) := by
  refine headerPart_passes hs .noStart ?_
  refine ensures_ifCheck (fun _ => ?_) fun _ => ?_
  · refine (declarations_pass hg hs).mono ?_
    rintro _ s' ⟨id, data, names, rfl, hplain, hnames, hall, hpassed⟩
    exact ⟨.varStart hplain hnames hall, hpassed⟩
  · exact (hg.expression true s hs).mono fun t s' ⟨ht, h⟩ => ⟨.exprStart ht, h⟩

/-- The parts of a header that was read, whose loop is still to get its body. -/
inductive Headed (d : Dialect) (first : Tree) : Tag × List Tree → Prop
  | inside {object} : Grammar.isForInTarget first = true → Formed d .expr object →
      Headed d first (.forIn, [first, object])
  | parts {test update} : Formed d .part test → Formed d .part update →
      Headed d first (.kwFor, [first, test, update])

theorem forHeader_passes (hg : Sound d g) {first : Tree} (hs : Sane d s) :
    Ensures False (g.forHeader first) s fun header s' => Headed d first header
      ∧ Passed d s s' (Trace.sum (header.2.tail.map (Tree.trace false))) := by
  refine ensures_ifCheck (fun _ => ?_) fun _ => ?_
  · split
    · next htarget =>
      refine ensures_advance hs.toSteady fun s₁ h₁ => ?_
      refine (hg.expression false s₁ h₁.sane).bind fun object s₂ hread => ensures_pure ?_
      obtain ⟨hobject, h₂⟩ := hread
      exact ⟨.inside htarget hobject, (h₁.trans h₂).cast (by simp [Trace.sum])⟩
    · exact ensures_failAt
  · refine ensures_expect hs fun s₁ _ h₁ => ?_
    refine (expressionPart_passes hg h₁.sane).bind fun test s₂ hread => ?_
    obtain ⟨htest, h₂⟩ := hread
    refine ensures_expect h₂.sane fun s₃ _ h₃ => ?_
    refine (expressionPart_passes hg h₃.sane).bind fun update s₄ hread => ensures_pure ?_
    obtain ⟨hupdate, h₄⟩ := hread
    exact ⟨.parts htest hupdate, ((h₁.trans h₂).trans (h₃.trans h₄)).cast (by simp [Trace.sum])⟩

theorem forStatement_reads (hg : Sound d g) {top : Bool} (hk : Kept s.settle s₁)
    (hs : Sane d s₁) : ReadsBare d s s₁ top (g.forStatement s.pendingLabels) := by
  refine ensures_advance hs.toSteady fun s₂ h₂ => ?_
  refine ensures_expect h₂.sane fun s₃ _ h₃ => ?_
  refine (forStart_passes hg h₃.sane).bind fun first s₄ ⟨hfirst, h₄⟩ => ?_
  refine (forHeader_passes hg h₄.sane).bind fun (tag, header) s₅ ⟨hheader, h₅⟩ => ?_
  refine ensures_freshId h₅.sane fun id s₆ _ _ _ h₆ => ?_
  refine ensures_expect h₆.sane fun s₇ _ h₇ => ?_
  have hpassed := (((h₂.trans h₃).trans h₄).trans h₅).trans (h₆.trans h₇)
  refine (loopBody_passes hg (hk.trans hpassed.kept) h₇.sane).bind
    fun body s₈ ⟨⟨hbody, hopen⟩, h₈⟩ => ?_
  refine ensures_withJumps fun data' hdata => ?_
  have hplain := (Node.plain_leaf tag s₁.current.line).of_agrees hdata
  have htag : data'.tag = tag := congrArg Core.tag hplain.core
  cases hheader with
  | inside htarget hobject =>
    refine ⟨.forIn hplain.remarked hfirst htarget hobject hbody, hplain.leading,
      (hpassed.trans h₈).cast ?_, fun h => hopen ?_⟩
    · rw [hplain.trace_quiet rfl]
      simp [Trace.sum]
    · simpa [Tree.endsOpen, Tree.lastEndsOpen, htag] using h
  | parts htest hupdate =>
    refine ⟨.for hplain.remarked hfirst htest hupdate hbody, hplain.leading,
      (hpassed.trans h₈).cast ?_, fun h => hopen ?_⟩
    · rw [hplain.trace_quiet rfl]
      simp [Trace.sum]
    · simpa [Tree.endsOpen, Tree.lastEndsOpen, htag] using h

/-! ## Jumps -/

theorem destination_passes {tag : Tag} {label? : Option String} {line : Nat} :
    Ensures False (destination tag label? line) s fun _ s' =>
      s' = s ∧ s.ctx.reaches tag label? = true := by
  refine ensures_get ?_
  cases label? with
  | none =>
    dsimp only
    split
    · next htag =>
      split
      · next target htarget =>
        refine ensures_pure ⟨rfl, ?_⟩
        rw [Ctx.reaches, if_pos htag]
        simp only [State.ctx]
        cases htargets : s.targets with
        | nil => simp [htargets] at htarget
        | cons => rfl
      · exact ensures_failAt
    · next htag =>
      split
      · next target htarget =>
        refine ensures_pure ⟨rfl, ?_⟩
        rw [Ctx.reaches, if_neg htag]
        exact List.any_eq_true.mpr ⟨target, List.mem_of_find?_eq_some htarget,
          List.find?_some htarget⟩
      · exact ensures_failAt
  | some name =>
    dsimp only
    split
    · exact ensures_failAt
    · next label hlabel =>
      have hrole : s.ctx.role? name = some (s.role label) := by rw [role?_ctx, hlabel]; rfl
      split
      · next htag => exact ensures_pure ⟨rfl, by simp [Ctx.reaches, hrole, htag]⟩
      · split
        · next loop hloop =>
          exact ensures_pure ⟨rfl, by simp [Ctx.reaches, hrole, State.role, hloop]⟩
        · exact ensures_failAt

theorem jumpLabel_passes (hs : Sane d s) : Ensures False jumpLabel s fun label? s' =>
    (∀ name ∈ label?, Lexer.IsName d name) ∧ Passed d s s' {} := by
  refine ensures_get ?_
  dsimp only
  split
  · next h =>
    simp only [Bool.and_eq_true, beq_iff_eq] at h
    refine ensures_advance hs.toSteady fun s' hs' => ensures_pure ⟨?_, hs'⟩
    rintro name ⟨rfl⟩
    exact hs.worded h.1 rfl
  · exact ensures_pure ⟨by simp, .refl hs⟩

/-- What a label behind a jump becomes. -/
def Labelled (d : Dialect) (label? : Option String) (names : List Tree) : Prop :=
  match label? with
  | some label => ∃ name, names = [name] ∧ IsNamed (Lexer.IsName d) label name
  | none => names = []

theorem labelNode_passes (hs : Sane d s) {label? : Option String} {line : Nat}
    (hlabel : ∀ name ∈ label?, Lexer.IsName d name) :
    Ensures False (labelNode label? line) s fun names s' =>
      Labelled d label? names ∧ Passed d s s' {} := by
  cases label? with
  | none => exact ensures_pure ⟨rfl, .refl hs⟩
  | some label =>
    refine ensures_makeNode hs fun id s' _ hs' => ensures_pure ⟨⟨_, rfl, ?_⟩, hs'⟩
    exact ⟨Node.plain_identifier _ _, hlabel label rfl⟩

theorem jumpStatement_reads {top : Bool} (hk : Kept s.settle s₁) (hs : Sane d s₁)
    (htag : s₁.current.tag = .kwBreak ∨ s₁.current.tag = .kwContinue) :
    ReadsBare d s s₁ top jumpStatement := by
  refine ensures_advance hs.toSteady fun s₂ h₂ => ?_
  refine (jumpLabel_passes h₂.sane).bind fun label? s₃ ⟨hlabel, h₃⟩ => ?_
  refine destination_passes.bind ?_
  rintro target _ ⟨rfl, hreaches⟩
  rw [(hk.trans (h₂.kept.trans h₃.kept)).ctx, ctx_settle, reaches_settled] at hreaches
  refine ensures_freshId h₃.sane fun id s₄ _ _ _ h₄ => ?_
  refine (labelNode_passes h₄.sane hlabel).bind fun names s₅ ⟨hnames, h₅⟩ => ?_
  have hjumps : Passed d s₅ { s₅ with jumps := s₅.jumps ++ [(target, id)] } {} :=
    .of_same h₅.sane rfl rfl rfl rfl ⟨rfl, Nat.le_refl _⟩ (by simp [State.needs]) rfl
  refine ensures_modify ((endStatement_passes hjumps.sane).bind fun _ s₆ h₆ => ensures_pure ?_)
  have hplain := Node.plain_jump s₁.current.tag label? target s₁.current.line
  have htrace : Trace.sum (names.map (Tree.trace true)) = {} := by
    cases label? with
    | none => rw [show names = [] from hnames]; rfl
    | some label =>
      obtain ⟨name, rfl, hname⟩ := hnames
      rw [List.map_singleton, hname.trace]
      rfl
  have hpassed : Passed d s₁ s₆ ((Tree.node id
      (.jump s₁.current.tag label? target s₁.current.line) names).trace false) := by
    refine (((h₂.trans h₃).trans h₄).trans ((h₅.trans hjumps).trans h₆)).cast ?_
    have hparts : (Tree.node id (.jump s₁.current.tag label? target s₁.current.line) names).trace
        false = Trace.sum (names.map (Tree.trace true)) := by
      rcases htag with h | h
      · rw [h] at hplain ⊢
        rw [hplain.trace_parts rfl rfl rfl, Tree.traces_eq_sum _ fun _ _ => rfl]
      · rw [h] at hplain ⊢
        rw [hplain.trace_parts rfl rfl rfl, Tree.traces_eq_sum _ fun _ _ => rfl]
    rw [hparts, htrace]
    simp
  have htag' : (Node.jump s₁.current.tag label? target s₁.current.line).tag = s₁.current.tag :=
    congrArg Core.tag hplain.core
  refine ⟨?_, hplain.leading, hpassed, fun h => ?_⟩
  · cases label? with
    | none =>
      rw [show names = [] from hnames]
      exact .jump hplain.remarked htag hreaches
    | some label =>
      obtain ⟨name, rfl, hname⟩ := hnames
      exact .jumpTo hplain.remarked htag hreaches hname
  · rw [endsOpen_tag (by rw [htag']; rcases htag with h | h <;> rw [h] <;> rfl)] at h
    cases h

/-! ## Returns, throws and objects in scope -/

theorem returnStatement_reads (hg : Sound d g) {top : Bool} (hk : Kept s.settle s₁)
    (hs : Sane d s₁) : ReadsBare d s s₁ top g.returnStatement := by
  refine ensures_get ?_
  split
  · exact ensures_fails rfl
  next hnone =>
  have hfunction : s.ctx.inFunction = true := by
    have hsame : s₁.scope.function? = s.scope.function? := hk.function?
    rw [State.ctx, ← hsame]
    simpa [Option.isSome_iff_ne_none] using hnone
  refine ensures_advance hs.toSteady fun s₂ h₂ => ensures_get ?_
  have hplain := Node.plain_leaf .kwReturn s₁.current.line
  have hlast : ∀ (value : List Tree) s₃,
      (∀ id, Formed d (.statement s.ctx top) (.node id (.leaf .kwReturn s₁.current.line) value)) →
      Passed d s₂ s₃ (Trace.sum (value.map (Tree.trace false))) →
      Ensures False (endStatement >>= fun _ => makeNode (.leaf .kwReturn s₁.current.line) value) s₃
        (Bare d s s₁ top) := by
    intro value s₃ hformed h₃
    refine (endStatement_passes h₃.sane).bind fun _ s₄ h₄ => ?_
    refine ensures_makeNode_last h₄.sane fun id s₅ _ h₅ => ?_
    refine ⟨hformed id, hplain.leading, ((h₂.trans h₃).trans (h₄.trans h₅)).cast ?_, fun h => ?_⟩
    · rw [hplain.trace_quiet rfl]
      simp
    · rw [endsOpen_tag rfl] at h
      cases h
  split
  · exact hlast [] s₂ (fun _ => .return hplain.remarked hfunction) (.refl h₂.sane)
  · refine (hg.expression false s₂ h₂.sane).bind fun value s₃ ⟨hvalue, h₃⟩ => ?_
    exact hlast [value] s₃ (fun _ => .returnValue hplain.remarked hfunction hvalue)
      (h₃.cast (Trace.append_empty _).symm)

theorem withStatement_reads (hg : Sound d g) {top : Bool} (hk : Kept s.settle s₁)
    (hs : Sane d s₁) : ReadsBare d s s₁ top g.withStatement := by
  refine ensures_advance hs.toSteady fun s₂ h₂ => ?_
  refine ensures_expect h₂.sane fun s₃ _ h₃ => ?_
  refine (hg.expression false s₃ h₃.sane).bind fun object s₄ hread => ?_
  obtain ⟨hobject, h₄⟩ := hread
  refine ensures_expect h₄.sane fun s₅ _ h₅ => ?_
  refine ensures_modifyScope h₅.sane ⟨true, false⟩ rfl (by simp [State.needs, Needs.append_def])
    fun s₆ _ h₆ => ?_
  have hpassed := ((h₂.trans h₃).trans (h₄.trans h₅)).trans h₆
  refine (body_passes hg (hk.trans hpassed.kept) h₆.sane).bind fun body s₇ hread => ?_
  obtain ⟨hbody, h₇, hopen⟩ := hread
  refine ensures_makeNode_last h₇.sane fun id s₈ hcurrent h₈ => ?_
  have hplain := Node.plain_leaf .kwWith s₁.current.line
  refine ⟨.with hplain.remarked hobject hbody, hplain.leading,
    ((hpassed.trans h₇).trans h₈).cast ?_, fun h => ?_⟩
  · rw [hplain.trace rfl, Tree.traces_cons, Tree.traces_cons, Tree.traces_nil]
    change _ = ⟨⟨true, false⟩, []⟩ ++ (object.trace false ++ (body.trace false ++ {}))
    rw [← Trace.append_assoc ⟨⟨true, false⟩, []⟩, Trace.needs_comm ⟨true, false⟩]
    simp
  · rw [hcurrent]
    exact hopen (by simpa [Tree.endsOpen, Tree.lastEndsOpen, Node.leaf] using h)

theorem throwStatement_reads (hg : Sound d g) {top : Bool}
    (hs : Sane d s₁) (htag : s₁.current.tag = .kwThrow) :
    ReadsBare d s s₁ top g.throwStatement := by
  have hsign := hs.keyword htag rfl fun _ => rfl
  refine ensures_advance hs.toSteady fun s₂ h₂ => ensures_get ?_
  split
  · exact ensures_fails rfl
  refine (hg.expression false s₂ h₂.sane).bind fun value s₃ ⟨hvalue, h₃⟩ => ?_
  refine (endStatement_passes h₃.sane).bind fun _ s₄ h₄ => ?_
  refine ensures_makeNode_last h₄.sane fun id s₅ _ h₅ => ?_
  have hplain := Node.plain_leaf .kwThrow s₁.current.line
  refine ⟨.throw hplain.remarked hsign hvalue, hplain.leading,
    ((h₂.trans h₃).trans (h₄.trans h₅)).cast ?_, fun h => ?_⟩
  · rw [hplain.trace_quiet rfl]
    simp [Trace.sum]
  · rw [endsOpen_tag rfl] at h
    cases h

/-! ## Switches -/

/-- The node of a clause and its test. A default clause is the first one. -/
inductive ClauseHeaded (d : Dialect) (hasDefault : Bool) : Node × List Tree → Prop
  | case {line test} : Lexer.IsSign d .kwCase none → Formed d .expr test →
      ClauseHeaded d hasDefault (.leaf .kwCase line, [test])
  | default {line} : Lexer.IsSign d .kwDefault none → hasDefault = false →
      ClauseHeaded d hasDefault (.leaf .kwDefault line, [])

theorem clauseHead_passes (hg : Sound d g) {hasDefault : Bool} (hs : Sane d s) :
    Ensures False (g.clauseHead hasDefault) s fun head s' => ClauseHeaded d hasDefault head
      ∧ Passed d s s' (Trace.sum (head.2.map (Tree.trace false))) := by
  refine ensures_get ?_
  dsimp only
  split
  · next htag =>
    have hsign := hs.keyword htag rfl fun _ => rfl
    refine ensures_advance hs.toSteady fun s₁ h₁ => ?_
    refine (hg.expression false s₁ h₁.sane).bind fun test s₂ ⟨htest, h₂⟩ => ?_
    refine ensures_expect h₂.sane fun s₃ _ h₃ => ensures_pure ⟨.case hsign htest, ?_⟩
    exact (h₁.trans (h₂.trans h₃)).cast (by simp [Trace.sum])
  · next htag =>
    have hsign := hs.keyword htag rfl fun _ => rfl
    cases hasDefault with
    | true => exact ensures_fails rfl
    | false =>
      refine ensures_advance hs.toSteady fun s₁ h₁ => ?_
      refine ensures_expect h₁.sane fun s₂ _ h₂ => ensures_pure ⟨.default hsign rfl, ?_⟩
      exact (h₁.trans h₂).cast (by simp [Trace.sum])
  · exact ensures_fail
  · exact ensures_unexpected

/-- The clauses of a switch were read, with one default clause at most. -/
structure Clauses (d : Dialect) (s : State) (clauses : List Tree) (s' : State) : Prop where
  listed : Listed d s (Formed d (.clause s.ctx)) (Tree.trace false) clauses s'
  defaults : (clauses.filter (·.tag == .kwDefault)).length ≤ 1

theorem clauseTurn_passes (hg : Sound d g) (hp : s₀.pendingLabels = []) {clauses : List Tree}
    (h : Clauses d s₀ clauses s) : Ensures False (g.clauseTurn clauses) s
      (Turn.Leads (Clauses d s₀) (Clauses d s₀)) := by
  have hs := h.listed.passed.sane
  refine ensures_ifCheck (fun _ => ensures_pure h) fun _ => ?_
  refine ensures_takeComments hs fun s₁ _ h₁ => ?_
  refine (clauseHead_passes hg h₁.sane).bind fun (data, test) s₂ ⟨hhead, h₂⟩ => ?_
  refine ensures_freshId h₂.sane fun id s₃ _ _ _ h₃ => ?_
  have hk := h.listed.passed.kept.trans (h₁.kept.trans (h₂.kept.trans h₃.kept))
  refine (itemsUntil_passes test h₃.sane fun s' _ hk' hs' =>
    listedStatement_passes hg hp (hk.trans hk') hs').bind
      fun statements s₄ ⟨rest, hrest, h₄, _⟩ => ensures_pure ?_
  subst hrest
  have hpassed : Passed d s s₄ (⟨{}, s.comments⟩
      ++ Trace.sum ((test ++ rest).map (Tree.trace false))) := by
    refine ((h₁.trans h₂).trans (h₃.trans h₄.passed)).cast ?_
    simp [Trace.sum_append]
  cases hhead with
  | @case line test hsign htest =>
    have hplain := Node.plain_leaf .kwCase line
    obtain ⟨data, hnode, hcore, hleading, htrailing⟩ :=
      withComments_leading s.comments id (.leaf .kwCase line) ([test] ++ rest) hplain.leading
    rw [hnode]
    rw [hplain.core] at hcore
    rw [hplain.trailing] at htrailing
    refine ⟨h.listed.snoc ?_ (hpassed.cast ?_), ?_⟩
    · refine .case ⟨hcore, ?_, htrailing⟩ hsign htest h₄.all
      rw [hleading]
      exact hs.comments
    · rw [Tree.trace_quiet hcore rfl, hleading, htrailing]
      simp
    · have htag : data.tag = .kwCase := congrArg Core.tag hcore
      simpa [List.filter_append, List.filter_cons, Tree.tag, Tree.data, htag] using h.defaults
  | @default line hsign hfirst =>
    have hplain := Node.plain_leaf .kwDefault line
    obtain ⟨data, hnode, hcore, hleading, htrailing⟩ :=
      withComments_leading s.comments id (.leaf .kwDefault line) ([] ++ rest) hplain.leading
    rw [hnode]
    rw [hplain.core] at hcore
    rw [hplain.trailing] at htrailing
    refine ⟨h.listed.snoc ?_ (hpassed.cast ?_), ?_⟩
    · refine .default ⟨hcore, ?_, htrailing⟩ hsign h₄.all
      rw [hleading]
      exact hs.comments
    · rw [Tree.trace_quiet hcore rfl, hleading, htrailing]
      simp
    · have hnone : clauses.filter (·.tag == .kwDefault) = [] := by
        rw [List.filter_eq_nil_iff]
        simpa [List.any_eq_false] using hfirst
      rw [List.filter_append, hnone, List.nil_append]
      exact List.length_filter_le _ [_]

theorem switchStatement_reads (hg : Sound d g) {top : Bool} (hk : Kept s.settle s₁)
    (hs : Sane d s₁) (htag : s₁.current.tag = .kwSwitch) :
    ReadsBare d s s₁ top g.switchStatement := by
  have hsign := hs.keyword htag rfl fun _ => rfl
  refine ensures_advance hs.toSteady fun s₂ h₂ => ?_
  refine ensures_freshId h₂.sane fun id s₃ _ _ _ h₃ => ?_
  refine ensures_expect h₃.sane fun s₄ _ h₄ => ?_
  refine (hg.expression false s₄ h₄.sane).bind fun value s₅ ⟨hvalue, h₅⟩ => ?_
  refine ensures_expect h₅.sane fun s₆ _ h₆ => ?_
  refine ensures_expect h₆.sane fun s₇ _ h₇ => ?_
  have hpassed := ((h₂.trans h₃).trans (h₄.trans h₅)).trans (h₆.trans h₇)
  have hk₇ := hk.trans hpassed.kept
  refine (withTarget_passes (P := fun clauses _ =>
    (∀ t ∈ clauses, Formed d (.clause s.ctx.inSwitch) t)
      ∧ (clauses.filter (·.tag == .kwDefault)).length ≤ 1)
    (T := fun clauses => Trace.sum (clauses.map (Tree.trace false))) h₇.sane
    fun hwithin => ?_).bind fun clauses s₈ ⟨⟨hclauses, hdefaults⟩, h₈⟩ => ?_
  · have hpending : (s₇.within id false []).pendingLabels = [] := hk₇.pendingLabels
    refine (ensures_iterate (fun _ _ => clauseTurn_passes hg hpending) _
      ⟨.nil hwithin, by simp⟩).mono fun clauses s₈ h => ?_
    rw [← ctx_switch hk₇ id]
    exact ⟨⟨h.listed.all, h.defaults⟩, h.listed.passed⟩
  refine ensures_takeComments h₈.sane fun s₉ _ h₉ => ?_
  refine ensures_expect h₉.sane fun s₁₀ _ h₁₀ => ?_
  have hplain := Node.plain_switchNode s₁.current.line clauses
  obtain ⟨data, hnode, hcore, hleading, htrailing⟩ := withComments_trailing s₈.comments id
    (switchNode s₁.current.line clauses) (value :: clauses) hplain.trailing
  rw [hnode]
  refine ensures_withJumps fun data' hdata => ?_
  rw [← hdata.core, hplain.core] at hcore
  rw [← hdata.leading, hplain.leading] at hleading
  rw [← hdata.trailing] at htrailing
  have htag' : data'.tag = .kwSwitch := congrArg Core.tag hcore
  refine ⟨.switch ⟨hcore, by simp [hleading], ?_⟩ hsign hvalue hclauses hdefaults, hleading,
    ((hpassed.trans h₈).trans (h₉.trans h₁₀)).cast ?_, fun h => ?_⟩
  · rw [htrailing]
    exact h₈.sane.comments
  · rw [Tree.trace_quiet hcore rfl, hleading, htrailing]
    simp [Trace.sum]
  · rw [endsOpen_tag (by rw [htag']; rfl)] at h
    cases h

/-! ## Exceptions -/

/-- The guard of a catch clause, if there is one. -/
def Guarded (d : Dialect) (guard : List Tree) : Prop :=
  guard = [] ∨ ∃ t, guard = [t] ∧ d.hasCatchGuards = true ∧ Formed d .expr t

theorem catchGuard_passes (hg : Sound d g) (hs : Sane d s) :
    Ensures False g.catchGuard s fun guard s' =>
      Guarded d guard ∧ Passed d s s' (Trace.sum (guard.map (Tree.trace false))) := by
  refine ensures_ifCheck (fun _ => ensures_get ?_) fun _ => ensures_pure ⟨.inl rfl, .refl hs⟩
  dsimp only
  split
  · next hguards =>
    rw [hs.dialect] at hguards
    refine ensures_advance hs.toSteady fun s₁ h₁ => ?_
    refine (hg.expression false s₁ h₁.sane).bind fun test s₂ ⟨htest, h₂⟩ => ensures_pure ?_
    exact ⟨.inr ⟨test, rfl, hguards, htest⟩, (h₁.trans h₂).cast (by simp [Trace.sum])⟩
  · exact ensures_fail

theorem catchClause_passes (hg : Sound d g) (hk : Kept s.settle s₁) (hs : Sane d s₁)
    (htag : s₁.current.tag = .kwCatch) : Ensures False g.catchClause s₁ fun t s' =>
      Formed d (.handler s.ctx.settled .kwCatch) t ∧ Passed d s₁ s' (t.trace false) := by
  have hsign := hs.keyword htag rfl fun _ => rfl
  refine ensures_advance hs.toSteady fun s₂ h₂ => ?_
  refine ensures_expect h₂.sane fun s₃ _ h₃ => ?_
  refine (declaredName_passes h₃.sane).bind fun (name, line) s₄ ⟨hname, h₄⟩ => ?_
  refine ensures_makeNode h₄.sane fun nameId s₅ _ h₅ => ?_
  refine (catchGuard_passes hg h₅.sane).bind fun guard s₆ ⟨hguard, h₆⟩ => ?_
  refine ensures_expect h₆.sane fun s₇ _ h₇ => ?_
  have hpassed := ((h₂.trans h₃).trans (h₄.trans h₅)).trans (h₆.trans h₇)
  refine (block_passes hg (hk.trans hpassed.kept) h₇.sane).bind fun body s₈ ⟨hbody, h₈⟩ => ?_
  refine ensures_makeNode_last h₈.sane fun id s₉ _ h₉ => ?_
  have hplain := Node.plain_leaf .kwCatch s₁.current.line
  have hnamed : IsNamed (Lexer.IsName d) name (.node nameId (.identifier name line) []) :=
    ⟨Node.plain_identifier _ _, hname⟩
  have hrest : Tree.traces { tag := .kwCatch } 1 (guard ++ [body])
      = Trace.sum ((guard ++ [body]).map (Tree.trace false)) :=
    Tree.traces_eq_sum _ fun i hi => by simp [Core.names]; omega
  refine ⟨?_, ((hpassed.trans h₈).trans h₉).cast ?_⟩
  · rcases hguard with rfl | ⟨test, rfl, hguards, htest⟩
    · exact .catch hplain hsign hnamed hbody
    · exact .guarded hplain hsign hguards hnamed htest hbody
  · rw [hplain.trace_parts rfl rfl rfl, List.cons_append, Tree.traces_cons, hrest]
    rw [show Core.names { tag := .kwCatch } 0 = true from rfl, hnamed.trace]
    simp [Trace.sum_append, Trace.sum]

theorem finallyPart_passes (hg : Sound d g) (hk : Kept s.settle s₁) (hs : Sane d s₁) :
    Ensures False g.finallyPart s₁ fun finals s' =>
      (∀ t ∈ finals, Formed d (.handler s.ctx.settled .kwFinally) t) ∧ finals.length ≤ 1
        ∧ Passed d s₁ s' (Trace.sum (finals.map (Tree.trace false))) := by
  refine ensures_ifCheck (fun htag => ?_) fun _ => ensures_pure ⟨by simp, by simp, .refl hs⟩
  have hsign := hs.keyword htag rfl fun _ => rfl
  refine ensures_advance hs.toSteady fun s₂ h₂ => ?_
  refine (block_passes hg (hk.trans h₂.kept) h₂.sane).bind fun body s₃ ⟨hbody, h₃⟩ => ?_
  refine ensures_makeNode h₃.sane fun id s₄ _ h₄ => ensures_pure ?_
  have hplain := Node.plain_leaf .kwFinally s₁.current.line
  refine ⟨by simpa using .finally hplain hsign hbody, by simp,
    (h₂.trans (h₃.trans h₄)).cast ?_⟩
  rw [List.map_singleton, hplain.trace_quiet rfl]
  simp [Trace.sum]

theorem tryStatement_reads (hg : Sound d g) {top : Bool} (hk : Kept s.settle s₁)
    (hs : Sane d s₁) (htag : s₁.current.tag = .kwTry) : ReadsBare d s s₁ top g.tryStatement := by
  have hsign := hs.keyword htag rfl fun _ => rfl
  refine ensures_advance hs.toSteady fun s₂ h₂ => ?_
  have hk₂ := hk.trans h₂.kept
  refine (block_passes hg hk₂ h₂.sane).bind fun body s₃ ⟨hbody, h₃⟩ => ?_
  have hk₃ := hk₂.trans h₃.kept
  refine (itemsUntil_passes (P := Formed d (.handler s.ctx.settled .kwCatch))
    (T := Tree.trace false) [] h₃.sane fun s' hends hk' hs' => ?_).bind
      fun catches s₄ ⟨rest, hrest, h₄, _⟩ => ?_
  · exact catchClause_passes hg (hk₃.trans hk') hs' (by simpa using hends)
  obtain rfl : catches = rest := by simpa using hrest
  refine (finallyPart_passes hg (hk₃.trans h₄.passed.kept) h₄.passed.sane).bind
    fun finals s₅ ⟨hfinals, hlength, h₅⟩ => ?_
  split
  · exact ensures_fails rfl
  next hsome =>
  refine ensures_makeNode_last h₅.sane fun id s₆ _ h₆ => ?_
  have hplain := Node.plain_leaf .kwTry s₁.current.line
  rw [List.cons_append]
  refine ⟨.try hplain.remarked hsign hbody h₄.all hfinals hlength (by simpa using hsome),
    hplain.leading, (((h₂.trans h₃).trans h₄.passed).trans (h₅.trans h₆)).cast ?_, fun h => ?_⟩
  · rw [hplain.trace_quiet rfl]
    simp [Trace.sum, Trace.sum_append]
  · rw [endsOpen_tag rfl] at h
    cases h

end ScriptPress.Grammar
