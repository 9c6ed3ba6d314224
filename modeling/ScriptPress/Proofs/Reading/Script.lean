import ScriptPress.Proofs.Reading.Statement

/-! # Reading scripts is sound

A name that stands alone is the text of its token, so that a label is known by it. With labelled
and expression statements, every statement is sound, at every depth of nesting. A script that is
read is a list of well-formed statements, and its comments are those on its tree.
-/
namespace ScriptPress.Grammar
variable {d : Dialect} {g : Grammar} {s s₀ s₁ : State} {α : Type}

/-! ## Lone names -/

/-- A tree that is a name, if it is one, with the text. -/
def IsLone (name : String) (t : Tree) : Prop :=
  t.tag = .identifier → t.data.payload = .text name

/-- From a name, what is read is that name or no name. -/
def ReadsLone (m : Reading Tree) : Prop :=
  ∀ s, s.current.tag = .identifier → Ensures False m s fun t _ => IsLone s.current.shown t

theorem isLone_of_ne {name : String} {t : Tree} (h : t.tag ≠ .identifier) : IsLone name t :=
  fun ht => absurd ht h

/-- A step that plays no part. -/
theorem ensures_any {β : Type} {m : Reading α} {f : α → Reading β} {Q : β → State → Prop}
    (h : ∀ a s', Ensures False (f a) s' Q) : Ensures False (m >>= f) s Q :=
  Ensures.bind (P := fun _ _ => True) (ensures_iff.mpr fun _ _ _ => trivial) fun a s' _ => h a s'

theorem makeNode_lone {name : String} {data : Node} {core : Core} (h : data.Plain core)
    (hne : core.tag ≠ .identifier) (children : List Tree) :
    Ensures False (makeNode data children) s fun t _ => IsLone name t := by
  have htag : data.tag = core.tag := congrArg Core.tag h.core
  exact isLone_of_ne fun ht => hne (htag.symm.trans ht)

theorem advance_current : Ensures False advance s fun t _ => t = s.current := by
  refine ensures_get ?_
  split
  · exact ensures_fails rfl
  · exact rfl

theorem primary_lone : ReadsLone g.primary := by
  intro s hs
  refine ensures_get ?_
  have hslash : s.current.isSlash = false := by simp [Token.isSlash, hs]
  rw [if_neg (by simp [hslash])]
  refine ensures_get ?_
  dsimp only
  rw [hs]
  refine advance_current.bind ?_
  rintro _ s₁ rfl
  exact ensures_any fun _ _ => ensures_any fun _ _ => fun _ => rfl

theorem access_lone {name : String} {object : Tree} {allowCall : Bool} (h : IsLone name object) :
    Ensures False (g.access allowCall object) s
      (Turn.Leads (fun t _ => IsLone name t) fun t _ => IsLone name t) := by
  refine ensures_get ?_
  dsimp only
  split
  · refine ensures_any fun _ _ => ensures_any fun _ _ => ensures_any fun _ _ => ?_
    exact (makeNode_lone (Node.plain_leaf _ _) (by decide) _).bind fun _ _ ht => ensures_pure ht
  · refine ensures_any fun _ _ => ensures_any fun _ _ => ensures_any fun _ _ => ?_
    exact (makeNode_lone (Node.plain_leaf _ _) (by decide) _).bind fun _ _ ht => ensures_pure ht
  · split
    · refine ensures_any fun args s₁ => ?_
      have hcall : ∀ s₂, Ensures False (makeNode (.call .call object.data s.current.line)
          (object :: args) >>= fun t => pure (Turn.again t)) s₂
          (Turn.Leads (fun t _ => IsLone name t) fun t _ => IsLone name t) := fun s₂ =>
        (makeNode_lone (Node.plain_call _ _ _) (by decide) _).bind fun _ _ ht => ensures_pure ht
      split
      · exact ensures_any fun _ s₂ => hcall s₂
      · exact hcall s₁
    · exact ensures_pure h
  · exact ensures_pure h

theorem memberOf_lone (allowCall : Bool) : ReadsLone (g.memberOf allowCall) := by
  intro s hs
  refine ensures_get ?_
  have hnew : (s.current.tag == .kwNew) = false := by rw [hs]; rfl
  have hfunction : (s.current.tag == .kwFunction) = false := by rw [hs]; rfl
  rw [if_neg (by simp [hnew]), if_neg (by simp [hfunction])]
  exact (primary_lone s hs).bind fun object s₁ hobject =>
    ensures_iterate (fun _ _ h => access_lone h) _ hobject

theorem steppedOperand_lone : ReadsLone g.steppedOperand := by
  intro s hs
  refine (memberOf_lone true s hs).bind fun operand s₁ hoperand => ensures_get ?_
  dsimp only
  split
  · next hstep =>
    split
    · refine advance_current.bind ?_
      rintro _ s₂ rfl
      refine makeNode_lone (Node.plain_step _ _ _) (fun htag => ?_) _
      have htag : s₁.current.tag = .identifier := htag
      rw [isStep, htag] at hstep
      cases hstep
    · exact ensures_fail
  · exact ensures_pure hoperand

theorem unaryOf_lone : ReadsLone g.unaryOf := by
  intro s hs
  refine ensures_get ?_
  have hunary : unaryOperator? s.current = none := by simp [unaryOperator?, hs]
  have hstep : isStep s.current = false := by simp [isStep, hs]
  dsimp only
  rw [hunary]
  dsimp only
  rw [if_neg (by simp [hstep])]
  exact steppedOperand_lone s hs

theorem binaryTurn_lone {name : String} {noIn : Bool} {level : Nat} {operand : Reading Tree}
    {left : Tree} (h : IsLone name left) : Ensures False (binaryTurn noIn level operand left) s
      (Turn.Leads (fun t _ => IsLone name t) fun t _ => IsLone name t) := by
  refine ensures_get ?_
  split
  · next tag datum _ =>
    split
    · next hlevel =>
      refine ensures_any fun _ _ => ensures_any fun _ _ => ?_
      refine (makeNode_lone (Node.plain_binary _ _ _ _ _) (fun htag => ?_) _).bind
        fun _ _ ht => ensures_pure ht
      have htag : tag = .identifier := htag
      rw [htag] at hlevel
      cases hlevel
    · exact ensures_pure h
  · exact ensures_pure h

theorem binaryOf_lone (noIn : Bool) (levels : Nat) : ReadsLone (g.binaryOf noIn levels) := by
  induction levels with
  | zero => exact unaryOf_lone
  | succ levels ih =>
    intro s hs
    exact (ih s hs).bind fun left s₁ hleft =>
      ensures_iterate (fun _ _ h => binaryTurn_lone h) _ hleft

theorem conditionalOf_lone (noIn : Bool) : ReadsLone (g.conditionalOf noIn) := by
  intro s hs
  refine (binaryOf_lone noIn _ s hs).bind fun test s₁ htest => ?_
  refine ensures_ifCheck (fun _ => ?_) fun _ => ensures_pure htest
  exact ensures_any fun _ _ => ensures_any fun _ _ => ensures_any fun _ _ =>
    ensures_any fun _ _ => makeNode_lone (Node.plain_leaf _ _) (by decide) _

theorem assignmentOf_lone (noIn : Bool) : ReadsLone (g.assignmentOf noIn) := by
  intro s hs
  refine (conditionalOf_lone noIn s hs).bind fun target s₁ htarget => ?_
  refine ensures_ifCheck (fun _ => ?_) fun _ => ensures_pure htarget
  split
  · refine ensures_any fun operator _ => ensures_any fun value _ => ?_
    exact makeNode_lone (Node.plain_assign _ _ _ _) (fun h => Tag.noConfusion h) _
  · exact ensures_fail

theorem sequenceTurn_lone {name : String} {assignment : Reading Tree} {left : Tree}
    (h : IsLone name left) : Ensures False (sequenceTurn assignment left) s
      (Turn.Leads (fun t _ => IsLone name t) fun t _ => IsLone name t) := by
  refine ensures_ifCheck (fun _ => ?_) fun _ => ensures_pure h
  refine ensures_any fun _ _ => ensures_any fun _ _ => ?_
  exact (makeNode_lone (Node.plain_leaf _ _) (by decide) _).bind fun _ _ ht => ensures_pure ht

theorem expressionOf_lone (noIn : Bool) : ReadsLone (g.expressionOf noIn) := by
  intro s hs
  exact (assignmentOf_lone noIn s hs).bind fun first s₁ hfirst =>
    ensures_iterate (fun _ _ h => sequenceTurn_lone h) _ hfirst

/-! ## Labels and expression statements -/

/-- A name that was read as an expression. -/
theorem formed_name {t : Tree} {name : String} (h : Formed d .expr t) (htag : t.tag = .identifier)
    (hlone : IsLone name t) : t.trace false = ⟨⟨name == "arguments", false⟩, []⟩ := by
  have hpayload := hlone htag
  cases h with
  | @leaf id data core hplain hleaf =>
    have hdata : core.tag = .identifier := (congrArg Core.tag hplain.core).symm.trans htag
    cases hleaf with
    | @name s hname =>
      have hs : s = name := by
        have := (congrArg Core.payload hplain.core).symm.trans hpayload
        simpa using this
      subst hs
      exact Tree.trace_name hplain id
    | _ => cases hdata
  | step hplain hor =>
    have hdata := (congrArg Core.tag hplain.core).symm.trans htag
    rcases hor with rfl | rfl <;> cases hdata
  | @binary _ _ tag _ _ _ hplain hbinary =>
    have hdata : tag = .identifier := (congrArg Core.tag hplain.core).symm.trans htag
    obtain ⟨_, _, _, hoperator⟩ := hbinary
    obtain ⟨level, hlevel⟩ := binaryOperator_level hoperator
    rw [hdata] at hlevel
    cases hlevel
  | array hplain | object hplain | function hplain | unary hplain | assign hplain
  | conditional hplain | comma hplain | call hplain | construct hplain | property hplain
  | index hplain =>
    have hdata := (congrArg Core.tag hplain.core).symm.trans htag
    cases hdata

/-- A statement is read behind a label, which is in front of it. -/
theorem labelledBody_passes (hg : Sound d g) {name : String} {id : NodeId}
    (hk : Kept s.settle s₀) (hk' : Kept s₀ s₁) (hs₀ : Sane d s₀) (hs : Sane d s₁)
    (hid : s₀.nextId ≤ id.index) (hfresh : id.index < s₁.nextId) :
    Ensures False (g.statement false) { s₁ with
        labels := ⟨name, id, none⟩ :: s₁.labels, pendingLabels := s.pendingLabels ++ [id] }
      fun t s' => Formed d (.statement (s.ctx.labelled name) false) t
        ∧ Passed d s₁ { s' with labels := s₁.labels } (t.trace false)
        ∧ (t.endsOpen = true → s'.current.tag ≠ .kwElse) := by
  have hinner : Sane d { s₁ with
      labels := ⟨name, id, none⟩ :: s₁.labels, pendingLabels := s.pendingLabels ++ [id] } := by
    refine ⟨⟨hs.dialect, hs.comments, hs.heard, fun l hl => ?_⟩, hs.current, hs.slash⟩
    rcases List.mem_cons.mp hl with rfl | hl
    · exact hfresh
    · exact hs.labels l hl
  refine (hg.statement false _ hinner).mono fun t s' ⟨ht, hpassed, hopen⟩ => ⟨?_, ?_, hopen⟩
  · rwa [ctx_labelled hs₀.labels hk name hid hk'] at ht
  · have hdialect : s'.lexer.dialect = s₁.lexer.dialect := hpassed.kept.dialect
    have htargets : s'.targets = s₁.targets := hpassed.kept.targets
    have hfunction : s'.scope.function? = s₁.scope.function? := hpassed.kept.function?
    have hpending : s'.pendingLabels = s₁.pendingLabels :=
      hpassed.kept.pendingLabels.trans (hk.trans hk').pendingLabels.symm
    have hnext : s₁.nextId ≤ s'.nextId := hpassed.kept.nextId
    refine ⟨⟨?_, hnext⟩, ⟨⟨hpassed.sane.dialect, hpassed.sane.comments, hpassed.sane.heard,
      fun l hl => Nat.lt_of_lt_of_le (hs.labels l hl) hnext⟩, hpassed.sane.current,
      hpassed.sane.slash⟩, hpassed.needs, hpassed.heard⟩
    simp only [State.frame, hdialect, htargets, hfunction, hpending]

theorem labelledStatement_reads (hg : Sound d g) {top : Bool} {name : String} {line : Nat}
    {s₂ : State} (hk : Kept s.settle s₁) (h₂ : Passed d s₁ s₂ ⟨⟨name == "arguments", false⟩, []⟩)
    (hname : Lexer.IsName d name) : Ensures False
      (g.labelledStatement name line s.pendingLabels) s₂ (Bare d s s₁ top) := by
  refine ensures_get ?_
  split
  · exact ensures_fails rfl
  next hnew =>
  have hrole : s.ctx.role? name = none := by
    have hlabels : s₂.labels = s.labels := (hk.trans h₂.kept).labels
    have hsame : labelNamed? name s = labelNamed? name s₂ := by
      rw [labelNamed?, labelNamed?, hlabels]
    rw [role?_ctx, hsame]
    simpa using hnew
  refine ensures_advance h₂.sane.toSteady fun s₃ h₃ => ?_
  refine ensures_freshId h₃.sane fun id s₄ _ hfresh hid h₄ => ?_
  refine ensures_makeNode h₄.sane fun nameId s₅ _ h₅ => ensures_get (ensures_set ?_)
  have hk₃ := hk.trans (h₂.kept.trans h₃.kept)
  refine (labelledBody_passes hg hk₃ (h₄.kept.trans h₅.kept) h₃.sane h₅.sane hid
    (Nat.lt_of_lt_of_le hfresh h₅.kept.nextId)).bind fun body s₆ hread => ?_
  obtain ⟨hbody, h₆, hopen⟩ := hread
  refine ensures_modify (ensures_withJumps fun data' hdata => ?_)
  have hnamed : IsNamed (Lexer.IsName d) name (.node nameId (.identifier name line) []) :=
    ⟨Node.plain_identifier _ _, hname⟩
  have hplain := (Node.plain_label name line).of_agrees hdata
  have htag : data'.tag = .label := congrArg Core.tag hplain.core
  refine ⟨.label hplain.remarked hnamed hrole hbody, hplain.leading,
    ((h₂.trans h₃).trans ((h₄.trans h₅).trans h₆)).cast ?_, fun h => hopen ?_⟩
  · rw [hplain.trace_quiet rfl, List.map_cons, List.map_singleton,
      Tree.trace_name (Node.plain_identifier name line)]
    simp [Trace.sum]
  · simpa [Tree.endsOpen, Tree.lastEndsOpen, htag] using h

theorem simpleStatement_reads (hg : Sound d g) {top : Bool} (hk : Kept s.settle s₁)
    (hs : Sane d s₁) : ReadsBare d s s₁ top (g.simpleStatement s.pendingLabels) := by
  refine ensures_get ?_
  dsimp only
  split
  · exact ensures_fails rfl
  refine ensures_get ?_
  have hread : Ensures False (g.expressionOf false) s₁ fun t s' => Formed d .expr t
      ∧ Passed d s₁ s' (t.trace false)
      ∧ (s₁.current.tag = .identifier → IsLone s₁.current.shown t) := by
    by_cases htag : s₁.current.tag = .identifier
    · refine ((expressionOf_reads hg false s₁ hs).and (expressionOf_lone false s₁ htag)).mono ?_
      exact fun t s' ⟨⟨ht, hpassed⟩, hlone⟩ => ⟨ht, hpassed, fun _ => hlone⟩
    · refine (expressionOf_reads hg false s₁ hs).mono fun t s' ⟨ht, hpassed⟩ => ?_
      exact ⟨ht, hpassed, fun h => absurd h htag⟩
  refine hread.bind fun value s₂ ⟨hvalue, h₂, hlone⟩ => ?_
  refine ensures_check ?_
  split
  · next h =>
    simp only [Bool.and_eq_true, beq_iff_eq] at h
    obtain ⟨⟨htag, hvalueTag⟩, -⟩ := h
    have htrace := formed_name hvalue hvalueTag (hlone htag)
    have hname : Lexer.IsName d s₁.current.shown := hs.worded htag rfl
    split
    · exact labelledStatement_reads hg hk (h₂.cast htrace) hname
    · refine ensures_modifyScope h₂.sane {} rfl (by simp [State.needs]) fun s₃ _ h₃ => ?_
      exact labelledStatement_reads hg hk ((h₂.trans h₃).cast (by simpa using htrace)) hname
  · have hlast : ∀ s₃, Passed d s₂ s₃ {} → Ensures False (endStatement >>= fun _ =>
        makeNode (.leaf .exprStatement s₁.current.line) [value]) s₃ (Bare d s s₁ top) := by
      intro s₃ h₃
      refine (endStatement_passes h₃.sane).bind fun _ s₄ h₄ => ?_
      refine ensures_makeNode_last h₄.sane fun id s₅ _ h₅ => ?_
      have hplain := Node.plain_leaf .exprStatement s₁.current.line
      refine ⟨.exprStatement hplain.remarked hvalue, hplain.leading,
        ((h₂.trans h₃).trans (h₄.trans h₅)).cast ?_, fun h => ?_⟩
      · rw [hplain.trace_quiet rfl]
        simp [Trace.sum]
      · rw [endsOpen_tag rfl] at h
        cases h
    split
    · exact hlast s₂ (.refl h₂.sane)
    · exact ensures_warn h₂.sane fun s₃ _ h₃ => hlast s₃ h₃

/-! ## Statements with their comments -/

/-- A statement without comments before it can take some. -/
theorem Formed.remark {ctx : Ctx} {top : Bool} {id : NodeId} {data data' : Node}
    {children : List Tree} (h : Formed d (.statement ctx top) (.node id data children))
    (hcore : data'.core = data.core) (htrailing : data'.trailing = data.trailing)
    (hleading : ∀ c ∈ data'.leading, Gap.IsComment c.toList) :
    Formed d (.statement ctx top) (.node id data' children) := by
  have hremark : ∀ {core}, data.Remarked core → data'.Remarked core := fun h =>
    ⟨hcore.trans h.core, hleading, htrailing.trans h.trailing⟩
  have hclose : ∀ {core}, data.Closed core → data'.Closed core := fun h =>
    ⟨hcore.trans h.core, hleading, by rw [htrailing]; exact h.trailing⟩
  cases h with
  | functionStatement hdata hf hbody => exact .functionStatement (hremark hdata) hf hbody
  | blockStatement hdata hall => exact .blockStatement (hclose hdata) hall
  | var hdata hne hall => exact .var (hremark hdata) hne hall
  | empty hdata => exact .empty (hremark hdata)
  | ifThen hdata htest hyes => exact .ifThen (hremark hdata) htest hyes
  | ifElse hdata htest hyes hopen hno => exact .ifElse (hremark hdata) htest hyes hopen hno
  | «while» hdata htest hbody => exact .while (hremark hdata) htest hbody
  | doWhile hdata hsign hbody htest => exact .doWhile (hremark hdata) hsign hbody htest
  | «for» hdata hstart htest hupdate hbody =>
    exact .for (hremark hdata) hstart htest hupdate hbody
  | forIn hdata hstart htarget hobject hbody =>
    exact .forIn (hremark hdata) hstart htarget hobject hbody
  | jump hdata htag hreaches => exact .jump (hremark hdata) htag hreaches
  | jumpTo hdata htag hreaches hname => exact .jumpTo (hremark hdata) htag hreaches hname
  | «return» hdata hin => exact .return (hremark hdata) hin
  | returnValue hdata hin hvalue => exact .returnValue (hremark hdata) hin hvalue
  | «with» hdata hobject hbody => exact .with (hremark hdata) hobject hbody
  | switch hdata hsign hvalue hall hdefaults =>
    exact .switch (hclose hdata) hsign hvalue hall hdefaults
  | throw hdata hsign hvalue => exact .throw (hremark hdata) hsign hvalue
  | «try» hdata hsign hbody hcatches hfinals hlength hsome =>
    exact .try (hremark hdata) hsign hbody hcatches hfinals hlength hsome
  | label hdata hname hnew hbody => exact .label (hremark hdata) hname hnew hbody
  | exprStatement hdata hvalue => exact .exprStatement (hremark hdata) hvalue

/-- Comments in front of a tree come first in its trace. -/
theorem trace_leading {id : NodeId} {data data' : Node} {children : List Tree}
    (hcore : data'.core = data.core) (htrailing : data'.trailing = data.trailing)
    (hleading : data.leading = []) : (Tree.node id data' children).trace false
      = ⟨{}, data'.leading⟩ ++ (Tree.node id data children).trace false := by
  rw [Tree.trace_node, Tree.trace_node, hcore, htrailing, hleading]
  rw [← Trace.append_assoc, ← Trace.append_assoc]
  simp [Trace.append_def]

theorem functionStatement_reads (hg : Sound d g) {top : Bool} (hs : Sane d s₁) :
    ReadsBare d s s₁ top (g.functionOf (functionRole top)) := by
  refine (functionOf_passes hg (functionRole top) hs).mono ?_
  rintro _ s' ⟨⟨id, data, f, body, rfl, hplain, hfunction, hbody⟩, hpassed⟩
  refine ⟨.functionStatement hplain.remarked hfunction hbody, hplain.leading, hpassed, fun h => ?_⟩
  have htag : data.tag = .kwFunction := congrArg Core.tag hplain.core
  rw [endsOpen_tag (by rw [htag]; rfl)] at h
  cases h

theorem blockStatement_reads (hg : Sound d g) {top : Bool} (hk : Kept s.settle s₁)
    (hs : Sane d s₁) : ReadsBare d s s₁ top (g.block "block") := by
  refine (block_passes hg hk hs).mono fun t s' ⟨ht, hpassed⟩ => ?_
  cases ht with
  | @block _ _ id data parts hclosed hleading hall =>
    refine ⟨.blockStatement hclosed hall, hleading, hpassed, fun h => ?_⟩
    have htag : data.tag = .block := congrArg Core.tag hclosed.core
    rw [endsOpen_tag (by rw [htag]; rfl)] at h
    cases h

theorem varStatement_reads (hg : Sound d g) {top : Bool} (hs : Sane d s₁) :
    ReadsBare d s s₁ top (do
      let vars ← g.declarations false
      endStatement
      return vars) := by
  refine (declarations_pass hg hs).bind ?_
  rintro _ s₂ ⟨id, data, names, rfl, hplain, hnames, hall, h₂⟩
  refine (endStatement_passes h₂.sane).bind fun _ s₃ h₃ => ensures_pure ?_
  refine ⟨.var hplain.remarked hnames hall, hplain.leading,
    (h₂.trans h₃).cast (Trace.append_empty _), fun h => ?_⟩
  have htag : data.tag = .kwVar := congrArg Core.tag hplain.core
  rw [endsOpen_tag (by rw [htag]; rfl)] at h
  cases h

theorem bareStatement_reads (hg : Sound d g) {top : Bool} (hk : Kept s.settle s₁)
    (hs : Sane d s₁) : ReadsBare d s s₁ top (g.bareStatement top s.pendingLabels) := by
  refine ensures_get ?_
  dsimp only
  split
  · exact functionStatement_reads hg hs
  · exact blockStatement_reads hg hk hs
  · exact varStatement_reads hg hs
  · refine ensures_advance hs.toSteady fun s₂ h₂ => ?_
    refine ensures_makeNode_last h₂.sane fun id s₃ _ h₃ => ?_
    have hplain := Node.plain_leaf .empty s₁.current.line
    refine ⟨.empty hplain.remarked, hplain.leading, (h₂.trans h₃).cast ?_, fun h => ?_⟩
    · rw [hplain.trace_quiet rfl]
      rfl
    · rw [endsOpen_tag rfl] at h
      cases h
  · exact ifStatement_reads hg hk hs
  · exact whileStatement_reads hg hk hs
  · next htag => exact doStatement_reads hg hk hs htag
  · exact forStatement_reads hg hk hs
  · next htag => exact jumpStatement_reads hk hs (.inl htag)
  · next htag => exact jumpStatement_reads hk hs (.inr htag)
  · exact returnStatement_reads hg hk hs
  · exact withStatement_reads hg hk hs
  · next htag => exact switchStatement_reads hg hk hs htag
  · next htag => exact throwStatement_reads hg hs htag
  · next htag => exact tryStatement_reads hg hk hs htag
  · exact simpleStatement_reads hg hk hs

theorem statementOf_reads (hg : Sound d g) (top : Bool) :
    ReadsStatement d top (g.statementOf top) := by
  intro s hs
  let s₁ : State := { s with comments := [], pendingLabels := [] }
  have h₁ : Passed d s.settle s₁ ⟨{}, s.comments⟩ := by
    refine ⟨⟨rfl, Nat.le_refl _⟩, ⟨⟨hs.dialect, by simp [s₁], hs.heard, hs.labels⟩, hs.current,
      hs.slash⟩, by simp [s₁, State.needs, State.settle], [], by simp [s₁, State.settle],
      by simp [s₁, State.settle]⟩
  change Ensures False (g.bareStatement top s.pendingLabels >>= fun t =>
    pure (withComments .comments s.comments t)) s₁ _
  refine (bareStatement_reads hg h₁.kept h₁.sane).bind fun t s₂ h => ensures_pure ?_
  obtain ⟨hformed, hleading, hpassed, hopen⟩ := h
  cases t with
  | node id data children =>
    obtain ⟨data', hnode, hcore, hleading', htrailing⟩ :=
      withComments_leading s.comments id data children hleading
    rw [hnode]
    refine ⟨Formed.remark hformed hcore htrailing ?_, (h₁.trans hpassed).cast ?_, fun h => ?_⟩
    · rw [hleading']
      exact hs.comments
    · rw [trace_leading hcore htrailing hleading, hleading']
    · have htag : data'.tag = data.tag := congrArg Core.tag hcore
      refine hopen ?_
      rw [Tree.endsOpen] at h ⊢
      rwa [htag] at h

/-! ## Scripts -/

theorem sound_step (hg : Sound d g) : Sound d (step g) :=
  ⟨statementOf_reads hg, assignmentOf_reads hg, expressionOf_reads hg, unaryOf_reads hg,
    memberOf_reads hg⟩

theorem sound_nested (d : Dialect) (depth : Nat) : Sound d (nested depth) := by
  induction depth with
  | zero =>
    exact ⟨fun _ _ _ => ensures_unexpected, fun _ _ _ => ensures_unexpected,
      fun _ _ _ => ensures_unexpected, fun _ _ => ensures_unexpected,
      fun _ _ _ => ensures_unexpected⟩
  | succ depth ih =>
    obtain ⟨hstatement, hassignment, hexpression, hunary, hmember⟩ := sound_step ih
    exact ⟨hstatement, hassignment, hexpression, hunary, hmember⟩

theorem script_reads (hg : Sound d g) {source : String} {line : Nat} (hs : Steady d s)
    (hctx : s.ctx = {}) (hp : s.pendingLabels = []) (hc : s.comments = s.heard) :
    Ensures False (g.script source line) s fun t s' => IsScript d t ∧ s'.heard = t.remarks := by
  refine ensures_advance hs fun s₁ h₁ => ?_
  refine ensures_freshId h₁.sane fun id s₂ _ _ _ h₂ => ?_
  have h₀ := h₁.trans h₂
  refine (itemsUntil_passes [] h₂.sane fun s' _ hk hs' => listedStatement_passes hg
    (h₀.kept.pendingLabels.trans hp) hk hs').bind fun statements s₃ ⟨rest, hrest, h₃, _⟩ => ?_
  obtain rfl : statements = rest := by simpa using hrest
  refine ensures_takeComments h₃.passed.sane fun s₄ hheard _ => ensures_get (ensures_pure ?_)
  have hplain := Node.plain_scriptNode source line s₄.current.line s₄.scope
  obtain ⟨data, hnode, hcore, hleading, htrailing⟩ := withComments_trailing s₃.comments id
    (scriptNode source line s₄.current.line s₄.scope) statements hplain.trailing
  rw [hnode]
  rw [hplain.core] at hcore
  rw [hplain.leading] at hleading
  have hctx₂ : s₂.ctx = {} := h₀.kept.ctx.trans hctx
  have hall := h₃.all
  rw [hctx₂] at hall
  refine ⟨⟨⟨hcore, by simp [hleading], ?_⟩, hleading, hall⟩, ?_⟩
  · rw [htrailing]
    exact h₃.passed.sane.comments
  · obtain ⟨more, hmore, hcomments⟩ := (h₀.trans h₃.passed).heard
    rw [hheard, hmore, ← hc, hcomments]
    have hremarks := congrArg Trace.remarks (Tree.trace_quiet hcore rfl id statements)
    rw [hleading, htrailing] at hremarks
    simpa [Tree.trace, Trace.append_def] using hremarks.symm

/-- A script is read to the end of its input, in one dialect. -/
theorem script_ends (hg : Sound d g) {source : String} {line : Nat} (hs : Steady d s)
    (hp : s.pendingLabels = []) : Ensures False (g.script source line) s
      fun _ s' => s'.lexer.dialect = d ∧ s'.current.tag = .endOfInput := by
  refine ensures_advance hs fun s₁ h₁ => ?_
  refine ensures_freshId h₁.sane fun id s₂ _ _ _ h₂ => ?_
  have h₀ := h₁.trans h₂
  refine (itemsUntil_passes [] h₂.sane fun s' _ hk hs' => listedStatement_passes hg
    (h₀.kept.pendingLabels.trans hp) hk hs').bind ?_
  rintro statements s₃ ⟨_, -, h₃, hend⟩
  refine Ensures.bind (P := fun _ s' => s'.lexer.dialect = d ∧ s'.current.tag = .endOfInput)
    ⟨h₃.passed.sane.dialect, beq_iff_eq.mp hend⟩ fun comments s₄ h₄ => ?_
  exact ensures_get (ensures_pure h₄)

/-- What is read as a script is well formed, and its comments are those on its tree. -/
theorem read_sound {settings : ReadSettings} {text : String} {script : Script}
    (h : Script.read settings text = .ok script) :
    IsScript settings.dialect script.tree ∧ script.comments = script.tree.remarks := by
  have hsteady : Steady settings.dialect (Script.opening settings text) :=
    ⟨rfl, by simp [Script.opening], rfl, by simp [Script.opening]⟩
  unfold Script.read at h
  dsimp only at h
  split at h
  · cases h
  next tree s hrun =>
  obtain rfl := Except.ok.inj h
  exact ensures_ok (script_reads (sound_nested settings.dialect _) hsteady rfl rfl rfl) hrun

end ScriptPress.Grammar

namespace ScriptPress.Script
variable {settings : ReadSettings} {text : String}

theorem exists_read {α : Type} {f : Script → α} {a : α}
    (h : (read settings text).toOption.map f = some a) :
    ∃ script, read settings text = .ok script ∧ f script = a := by
  cases hread : read settings text with
  | error problem =>
    rw [hread] at h
    cases h
  | ok script =>
    rw [hread] at h
    exact ⟨script, rfl, Option.some.inj h⟩

end ScriptPress.Script
