import ScriptPress.Proofs.Rereading.Phrase

/-! # Reading simple statements again

Statements without statements in them: empty ones, declarations, expressions, jumps, and the ones
that return or throw a value.
-/
namespace ScriptPress.Grammar
open Lexer Render

section
variable {β : Type} {x : Tape} {s₀ s : State} {t value : Tree} {names : List Tree} {id : NodeId}
  {data : Node} {ctx : Ctx} {top b noIn : Bool} {n : Nat} {more zs : List WriterStep}
  {P : Sym → Prop} {Q : β → State → Prop}

/-! ## Empty statements -/

theorem emptyStatement_yields (h : data.Remarked { tag := .empty }) :
    StatementYields x ctx top (.node id data []) := by
  have htag : data.tag = .empty := congrArg Core.tag h.core
  refine .of_bare (.empty h) (by change data.tag ≠ _; simp [htag])
    fun {s₀ b more n s} _ _ _ hs => ensures_get ?_
  have hwords : x.words b false (bareSteps x.o (.node id data []) ++ more)
      = ⟨⟨.semicolon, none, none⟩, b⟩ :: x.words false false more := by
    rw [bareSteps_empty h.core]
    rfl
  rw [hwords] at hs
  have hcurrent : s.current.tag = .semicolon := hs.tag_eq (by simp)
  simp only [hcurrent]
  refine hs.advance (by simp) fun s₁ hs₁ => hs₁.makeNode_last fun id' s₂ hs₂ => ⟨?_, ?_⟩
  · have hplain := Node.plain_leaf .empty s.current.line
    refine restates_node h hplain (by simp) .nil fun o _ => .of_eq ?_
    rw [bareSteps_empty h.core, bareSteps_empty hplain.core]
  · exact hs₂.loosen (x.loosens_breaks false false more)

/-! ## Declarations -/

theorem Fed.declare {ws : List Word} (h : Fed x s₀ ws s) {name : String} {line : Nat}
    {f : Unit → Reading β} (hf : ∀ s', Fed x s₀ ws s' → Ensures True (f ()) s' Q) :
    Ensures True (Grammar.declare name line >>= f) s Q := by
  refine Ensures.bind (P := fun _ => Fed x s₀ ws) ?_ fun _ s' hs' => hf s' hs'
  refine ensures_get ?_
  split
  · exact h.same rfl rfl rfl ⟨rfl, Nat.le_refl _⟩
  · exact h.same rfl rfl rfl ⟨rfl, Nat.le_refl _⟩

/-- A variable is read again with its value, in front of what ends it. -/
def DeclaredYields (x : Tape) (t : Tree) : Prop :=
  ∀ (s₀ : State) (noIn : Bool) (zs : List WriterStep) (n : Nat),
    Stops Precedence.assignment noIn (x.words false false zs) →
    Takes x s₀ n ((nested n).declaration noIn)
      (x.words false false (statementAt x.o t (.declared noIn) ++ zs))
      (x.Replays (.declared noIn) t) (x.words false false zs)

theorem declared_yields {name : String}
    (h : data.Plain { tag := .identifier, payload := .text name }) (hname : IsName x.dialect name) :
    DeclaredYields x (.node id data []) := by
  intro s₀ noIn zs n hstop
  rw [statementAt_declared [] h.core rfl, List.singleton_append, x.words_lexeme hname]
  refine ⟨Nat.lt_succ_self _, fun s hn hs => ?_⟩
  refine hs.declaredName fun line s₁ hs₁ => hs₁.declare fun s₂ hs₂ => ?_
  refine hs₂.freshId fun id' s₃ _ _ _ hs₃ => ensures_get ?_
  have hne : s₃.current.tag ≠ .assign := hs₃.no_assign hstop
  dsimp only
  rw [if_neg (by simp [hne])]
  have hplain := Node.plain_identifier name line
  refine ensures_pure ⟨⟨regains_node h hplain (by simp) .nil, fun o _ => .of_eq ?_⟩, hs₃⟩
  rw [statementAt_declared [] h.core rfl, statementAt_declared [] hplain.core rfl]

theorem initialised_yields {name : String}
    (h : data.Plain { tag := .identifier, payload := .text name }) (hname : IsName x.dialect name)
    (hvalue : ExprYields x value) : DeclaredYields x (.node id data [value]) := by
  intro s₀ noIn zs n hstop
  have hread : Yields x s₀ (readerAt noIn Precedence.assignment) _ _ _ :=
    hvalue.operand s₀ noIn { use := .operand Precedence.assignment, noIn } false zs rfl (by decide)
      (fun h => h) hstop
  have htakes : Takes x s₀ n ((nested n).assignment noIn) _ _ _ :=
    hread.inner (nests_assignment noIn) n
  have hsteps : statementAt x.o (.node id data [value]) (.declared noIn) ++ zs
      = .token name :: .space :: .token (signText .assign none) :: .space
        :: (exprAt x.o value { use := .operand Precedence.assignment, noIn } ++ zs) := by
    rw [statementAt_declared [value] h.core rfl]
    rfl
  have hassign : IsSign x.dialect .assign none := isSign_everywhere (by decide)
  have hlt := htakes.shorter
  rw [hsteps, x.words_lexeme hname, Tape.words_operator hassign]
  refine ⟨by simp only [List.length_cons]; omega, fun s hn hs => ?_⟩
  refine hs.declaredName fun line s₁ hs₁ => hs₁.declare fun s₂ hs₂ => ?_
  refine hs₂.freshId fun id' s₃ _ _ _ hs₃ => ensures_get ?_
  have hsym : s₃.current.sym = ⟨.assign, none, none⟩ := hs₃.sym (by simp)
  have htag : s₃.current.tag = .assign := congrArg Sym.tag hsym
  have hdatum : s₃.current.datum = none := congrArg Sym.datum hsym
  dsimp only
  rw [if_pos (by simp [htag, hdatum])]
  refine hs₃.advance (by simp) fun s₄ hs₄ => ?_
  simp only [List.length_cons] at hn
  refine htakes.bind (by omega) hs₄ fun value' s₅ hvalue' hs₅ => ensures_pure ⟨?_, hs₅⟩
  have hplain := Node.plain_identifier name line
  refine ⟨regains_node h hplain (by simp) (.cons hvalue'.toRegains .nil), fun o ho => ?_⟩
  rw [statementAt_declared [value] h.core rfl, statementAt_declared [value'] hplain.core rfl]
  exact .cons _ (.cons _ (.cons _ (.cons _ (hvalue'.drawn o ho _))))

/-- The word `var` and the variables behind it, in front of what ends the last one. -/
theorem declarations_yields (hne : names ≠ []) (hall : ∀ t ∈ names, DeclaredYields x t)
    (hstop : Stops Precedence.comma noIn (x.words false false more)) (s₀ : State) (b : Bool) :
    Yields x s₀ (·.declarations noIn) (x.words b false (varAt x.o names noIn ++ more))
      (fun t' => ∃ id' line names', t' = .node id' (.leaf .kwVar line) names'
        ∧ List.Forall₂ (x.Replays (.declared noIn)) names names') (x.words false false more) := by
  have hopens : Opens x.dialect (fun _ => True) (varAt x.o names noIn) :=
    opens_sign .kwVar (isSign_everywhere (by decide)) trivial
  refine ⟨x.shorter hopens b false more, fun n s hn hs => ?_⟩
  rw [varAt, List.cons_append, x.words_text "var" .kwVar (by decide) rfl] at hn hs
  refine hs.advance (by simp) fun s₁ hs₁ => ?_
  have hitems : Collects x s₀ n (separatedTurn ((nested n).declaration noIn))
      (x.words false false (separated (names.map fun t => statementAt x.o t (.declared noIn))
        ++ more)) (List.Forall₂ (x.Replays (.declared noIn)) [])
      (List.Forall₂ (x.Replays (.declared noIn)) ([] ++ names)) (x.words false false more) := by
    refine collects_separated hne (fun t ht zs hzs => hall t ht s₀ noIn zs n ?_) fun w hw hcomma => ?_
    · rcases hzs with rfl | ⟨ys, rfl⟩
      · exact hstop.mono (by decide)
      · rw [x.words_text "," .comma (by decide) rfl]
        exact stops_sign (fun _ => rfl) (by decide)
    · exact absurd (hstop w hw Precedence.comma (by rw [goesOn, hcomma]; rfl)) (Nat.lt_irrefl _)
  refine (hitems.repeatTurns hn .nil hs₁).bind fun names' s₂ hread => ?_
  exact hread.2.makeNode_last fun id' s₃ hs₃ => ⟨⟨id', _, names', rfl, hread.1⟩, hs₃⟩

theorem varAt_same {o : RenderOptions} (ho : x.Suffices o) {names' : List Tree}
    (h : List.Forall₂ (x.Replays (.declared noIn)) names names') :
    SameRun (varAt o names' noIn) (varAt o names noIn) :=
  .cons _ (separated_same h.flip fun _ _ ht => ht.drawn o ho)

theorem varStatement_yields (h : data.Remarked { tag := .kwVar }) (hne : names ≠ [])
    (hformed : ∀ t ∈ names, Formed x.dialect .declared t) (hall : ∀ t ∈ names, DeclaredYields x t) :
    StatementYields x ctx top (.node id data names) := by
  have htag : data.tag = .kwVar := congrArg Core.tag h.core
  refine .of_bare (.var h hne hformed) (by change data.tag ≠ _; simp [htag])
    fun {s₀ b more n s} _ hmore hn hs => ensures_get ?_
  have hsteps : bareSteps x.o (.node id data names) ++ more
      = varAt x.o names false ++ .semicolon :: more := by
    rw [bareSteps_var h.core, List.append_assoc]
    rfl
  rw [hsteps] at hn hs
  have hcurrent : s.current.tag = .kwVar := by
    have hfaces := hs
    rw [varAt, List.cons_append, x.words_text "var" .kwVar (by decide) rfl] at hfaces
    exact hfaces.tag_eq (by simp)
  simp only [hcurrent]
  have hstop : Stops Precedence.comma false (x.words false false (.semicolon :: more)) :=
    stops_end hmore
  have hread := declarations_yields hne hall hstop s₀.settle b
  refine (hread.ensures n s hn hs).bind fun vars s₁ hvars => ?_
  obtain ⟨⟨id', line, names', rfl, hnames⟩, hs₁⟩ := hvars
  refine hs₁.endStatement hmore fun s₂ hs₂ => ensures_pure ⟨?_, hs₂⟩
  have hplain := Node.plain_leaf .kwVar line
  refine restates_node h hplain (by simp) (regains_replays hnames) fun o ho => ?_
  rw [bareSteps_var h.core, bareSteps_var hplain.core]
  exact (varAt_same ho hnames).behind _

/-! ## Values -/

/-- The tags of the tokens that begin statements of other sorts than expressions. -/
def keyedTags : List Tag :=
  [.kwFunction, .leftBrace, .kwVar, .semicolon, .kwIf, .kwWhile, .kwDo, .kwFor, .kwBreak,
   .kwContinue, .kwReturn, .kwWith, .kwSwitch, .kwThrow, .kwTry]

theorem ensures_simple {g : Grammar} {pending : List NodeId} {Q : Tree → State → Prop}
    (h : s.current.tag ∉ keyedTags) (hread : Ensures True (g.simpleStatement pending) s Q) :
    Ensures True (g.bareStatement top pending) s Q := by
  simp only [keyedTags, List.mem_cons, not_or] at h
  refine ensures_get ?_
  dsimp only
  split <;> simp_all

/-- The words of an expression that is a statement begin no statement of another sort. -/
theorem Fed.simple (hvalue : Formed x.dialect .expr value) {place : Place}
    (hleads : place.leads = true)
    (hs : Fed x s₀ (x.words b false (exprAt x.o value place ++ more)) s) :
    s.current.tag ∉ keyedTags ∧ s.current.tag ≠ .reserved := by
  obtain ⟨w, ws, hbegin, hwords⟩ := (hvalue.heads place).words x.o.compact more
  have hall : ∀ tag ∈ operandTags ++ prefixTags, tag ≠ .kwFunction → tag ≠ .leftBrace →
      tag ∉ Tag.reserved :: keyedTags := by decide
  have hslash : ∀ tag ∈ Tag.reserved :: keyedTags, tag ≠ .div ∧ tag ≠ .assign := by decide
  obtain ⟨hfunction, hbrace⟩ := hbegin.leads hleads
  have hw := hall w.tag (List.mem_append.mpr hbegin.listed) hfunction hbrace
  rw [Tape.words, hwords] at hs
  have hne : ∀ tag ∈ Tag.reserved :: keyedTags, s.current.tag ≠ tag := by
    rintro tag htag
    exact hs.tag_ne (fun heq => hw (heq ▸ htag)) (hslash tag htag)
  exact ⟨fun h => hne _ (List.mem_cons_of_mem _ h) rfl, hne _ (by simp)⟩

theorem exprStatement_yields (h : data.Remarked { tag := .exprStatement })
    (hformed : Formed x.dialect .expr value) (hvalue : ExprYields x value) :
    StatementYields x ctx top (.node id data [value]) := by
  have htag : data.tag = .exprStatement := congrArg Core.tag h.core
  refine .of_bare (.exprStatement h hformed) (by change data.tag ≠ _; simp [htag])
    fun {s₀ b more n s} _ hmore hn hs => ?_
  have hsteps : bareSteps x.o (.node id data [value]) ++ more
      = exprAt x.o value { use := .operand Precedence.comma, leads := true }
        ++ .semicolon :: more := by
    rw [bareSteps_expr h.core, List.append_assoc]
    rfl
  rw [hsteps] at hn hs
  obtain ⟨hkeyed, hreserved⟩ := hs.simple hformed rfl
  have hread : Yields x s₀.settle (readerAt false Precedence.comma) _ _ _ :=
    hvalue.operand s₀.settle false { use := .operand Precedence.comma, leads := true } b
      (.semicolon :: more) rfl (by decide) (fun h => nomatch h) (stops_end hmore)
  refine ensures_simple hkeyed (ensures_get ?_)
  dsimp only
  split
  · next hreserved' => exact absurd (by simpa using hreserved') hreserved
  refine ensures_get ((hread.ensures n s hn hs).bind fun value' s₁ hread => ?_)
  obtain ⟨hvalue', hs₁⟩ := hread
  have hcolon : s₁.current.tag ≠ .colon := by
    rcases hs₁.tag_end hmore with htag | htag | htag <;> simp [htag]
  refine ensures_check ?_
  rw [if_neg (by simp [hcolon])]
  have hlast : ∀ s₂, Fed x s₀.settle (x.words false false (.semicolon :: more)) s₂ →
      Ensures True (endStatement >>= fun _ =>
        makeNode (.leaf .exprStatement s.current.line) [value']) s₂ fun t' s' =>
          x.Restates [] (.node id data [value]) t'
            ∧ Fed x s₀.settle (x.words true false more) s' := by
    intro s₂ hs₂
    refine hs₂.endStatement hmore fun s₃ hs₃ => hs₃.makeNode_last fun id' s₄ hs₄ => ⟨?_, hs₄⟩
    have hplain := Node.plain_leaf .exprStatement s.current.line
    refine restates_node h hplain (by simp) (.cons hvalue'.toRegains .nil) fun o ho => ?_
    rw [bareSteps_expr h.core, bareSteps_expr hplain.core]
    exact (hvalue'.drawn o ho _).behind _
  split
  · exact hlast s₁ hs₁
  · exact hs₁.warn hlast

/-- A value stands on the line of its keyword, and no statement ends before it. -/
theorem Fed.valued (hvalue : Formed x.dialect .expr value) {place : Place}
    (hs : Fed x s₀ (x.words false false (exprAt x.o value place ++ more)) s) :
    endsStatement s.current = false ∧ s.current.newlineBefore = false := by
  have hfaces := hs
  obtain ⟨w, ws, hbegin, hwords⟩ := (hvalue.heads place).words x.o.compact more
  rw [Tape.words, hwords] at hfaces
  have hnewline : s.current.newlineBefore = false := hfaces.newline rfl
  have hne : ∀ tag ∈ [Tag.semicolon, .rightBrace, .endOfInput], s.current.tag ≠ tag := by
    have hall : ∀ tag ∈ [Tag.semicolon, .rightBrace, .endOfInput],
        tag ∉ operandTags ++ prefixTags ∧ tag ≠ .div ∧ tag ≠ .assign := by decide
    intro tag htag
    refine hfaces.tag_ne (fun heq => (hall tag htag).1 ?_) (hall tag htag).2
    rw [← heq]
    exact List.mem_append.mpr hbegin.listed
  simp [endsStatement, hnewline, hne .semicolon, hne .rightBrace, hne .endOfInput]

/-- A value up to the end of its statement. -/
theorem value_reads (hvalue : ExprYields x value) (hmore : Resumes x.dialect P more)
    {f : Tree → Reading β}
    (hn : (x.words false false (exprAt x.o value { use := .operand Precedence.comma }
      ++ .semicolon :: more)).length < n)
    (hs : Fed x s₀ (x.words false false (exprAt x.o value { use := .operand Precedence.comma }
      ++ .semicolon :: more)) s)
    (hf : ∀ value' s', x.Redraws value value' →
      Fed x s₀ (x.words false false (.semicolon :: more)) s' → Ensures True (f value') s' Q) :
    Ensures True ((nested n).expression false >>= f) s Q :=
  (hvalue.expression { use := .operand Precedence.comma } rfl (fun h => h) (stops_end hmore)
    n).bind hn hs hf

theorem redraws_value {tag : Tag} (h : data.Remarked { tag := tag })
    (ht : tag = .kwReturn ∨ tag = .kwThrow) {value' : Tree} (hvalue : x.Redraws value value')
    (id' : NodeId) (line : Nat) :
    x.Restates [] (.node id data [value]) (.node id' (.leaf tag line) [value']) := by
  have hplain := Node.plain_leaf tag line
  refine restates_node h hplain ?_ (.cons hvalue.toRegains .nil) fun o ho => ?_
  · rcases ht with rfl | rfl <;> simp
  rw [bareSteps_value h.core ht, bareSteps_value hplain.core ht]
  exact (SameRun.cons _ (hvalue.drawn o ho _)).behind _

theorem throwStatement_yields (h : data.Remarked { tag := .kwThrow })
    (hsign : IsSign x.dialect .kwThrow none) (hformed : Formed x.dialect .expr value)
    (hvalue : ExprYields x value) : StatementYields x ctx top (.node id data [value]) := by
  have htag : data.tag = .kwThrow := congrArg Core.tag h.core
  refine .of_bare (.throw h hsign hformed) (by change data.tag ≠ _; simp [htag])
    fun {s₀ b more n s} _ hmore hn hs => ensures_get ?_
  have hsteps : bareSteps x.o (.node id data [value]) ++ more
      = .token "throw" :: (exprAt x.o value { use := .operand Precedence.comma }
        ++ .semicolon :: more) := by
    rw [bareSteps_value h.core (.inr rfl)]
    simp [Tag.spelling]
  rw [hsteps, x.words_spelled "throw" hsign rfl] at hn hs
  have hcurrent : s.current.tag = .kwThrow := hs.tag_eq (by simp)
  simp only [hcurrent]
  refine hs.advance (by simp) fun s₁ hs₁ => ensures_get ?_
  rw [if_neg (by simp [(hs₁.valued hformed).2])]
  refine value_reads hvalue hmore hn hs₁ fun value' s₂ hvalue' hs₂ => ?_
  refine hs₂.endStatement hmore fun s₃ hs₃ => hs₃.makeNode_last fun id' s₄ hs₄ => ?_
  exact ⟨redraws_value h (.inr rfl) hvalue' id' _, hs₄⟩

/-- A reading within a function. -/
theorem Fed.inside {ws : List Word} (hs : Fed x s₀.settle ws s)
    (hinside : s₀.ctx.inFunction = true) : s.scope.function?.isNone = false := by
  have hsame : s.scope.function? = s₀.scope.function? := hs.kept.function?
  have hsome : s₀.scope.function?.isSome = true := hinside
  rw [hsame, ← Option.not_isSome, hsome]
  rfl

theorem returnStatement_yields (h : data.Remarked { tag := .kwReturn })
    (hinside : ctx.inFunction = true) : StatementYields x ctx top (.node id data []) := by
  have htag : data.tag = .kwReturn := congrArg Core.tag h.core
  refine .of_bare (.return h hinside) (by change data.tag ≠ _; simp [htag])
    fun {s₀ b more n s} hctx hmore hn hs => ensures_get ?_
  have hsteps : bareSteps x.o (.node id data []) ++ more
      = .token "return" :: .semicolon :: more := by
    rw [bareSteps_keyword h.core (.inr (.inr rfl))]
    rfl
  rw [hsteps, x.words_text "return" .kwReturn (by decide) rfl] at hs
  have hcurrent : s.current.tag = .kwReturn := hs.tag_eq (by simp)
  simp only [hcurrent]
  refine ensures_get ?_
  rw [if_neg (by simp [hs.inside (by rwa [hctx])])]
  refine hs.advance (by simp) fun s₁ hs₁ => ensures_get ?_
  have hends : endsStatement s₁.current = true := by
    rcases hs₁.tag_end hmore with htag | htag | htag <;> simp [endsStatement, htag]
  rw [if_pos hends]
  refine ensures_let (hs₁.endStatement hmore fun s₂ hs₂ => hs₂.makeNode_last fun id' s₃ hs₃ => ?_)
  have hplain := Node.plain_leaf .kwReturn s.current.line
  refine ⟨restates_node h hplain (by simp) .nil fun o _ => .of_eq ?_, hs₃⟩
  rw [bareSteps_keyword h.core (.inr (.inr rfl)), bareSteps_keyword hplain.core (.inr (.inr rfl))]

theorem returnValue_yields (h : data.Remarked { tag := .kwReturn })
    (hinside : ctx.inFunction = true) (hformed : Formed x.dialect .expr value)
    (hvalue : ExprYields x value) : StatementYields x ctx top (.node id data [value]) := by
  have htag : data.tag = .kwReturn := congrArg Core.tag h.core
  refine .of_bare (.returnValue h hinside hformed) (by change data.tag ≠ _; simp [htag])
    fun {s₀ b more n s} hctx hmore hn hs => ensures_get ?_
  have hsteps : bareSteps x.o (.node id data [value]) ++ more
      = .token "return" :: (exprAt x.o value { use := .operand Precedence.comma }
        ++ .semicolon :: more) := by
    rw [bareSteps_value h.core (.inl rfl)]
    simp [Tag.spelling]
  rw [hsteps, x.words_text "return" .kwReturn (by decide) rfl] at hn hs
  have hcurrent : s.current.tag = .kwReturn := hs.tag_eq (by simp)
  simp only [hcurrent]
  refine ensures_get ?_
  rw [if_neg (by simp [hs.inside (by rwa [hctx])])]
  refine hs.advance (by simp) fun s₁ hs₁ => ensures_get ?_
  rw [if_neg (by simp [(hs₁.valued hformed).1])]
  refine value_reads hvalue hmore hn hs₁ fun value' s₂ hvalue' hs₂ => ensures_let ?_
  refine hs₂.endStatement hmore fun s₃ hs₃ => hs₃.makeNode_last fun id' s₄ hs₄ => ?_
  exact ⟨redraws_value h (.inl rfl) hvalue' id' _, hs₄⟩

/-! ## Jumps -/

/-- A jump that has somewhere to go finds it. -/
theorem destination_reads {tag : Tag} {label? : Option String} {line : Nat}
    {f : NodeId → Reading β} (h : s.ctx.reaches tag label? = true)
    (hf : ∀ target, Ensures True (f target) s Q) :
    Ensures True (destination tag label? line >>= f) s Q := by
  refine Ensures.bind (P := fun _ s' => s' = s) ?_ fun target s' hs' => hs' ▸ hf target
  refine ensures_get ?_
  cases label? with
  | none =>
    rw [Ctx.reaches] at h
    dsimp only
    split
    · next htag =>
      rw [if_pos htag] at h
      split
      · exact ensures_pure rfl
      · next hnone =>
        simp only [State.ctx] at h
        simp_all
    · next htag =>
      rw [if_neg htag] at h
      split
      · exact ensures_pure rfl
      · next hnone =>
        simp only [State.ctx, List.any_eq_true] at h
        obtain ⟨target, htarget, hloop⟩ := h
        exact absurd hloop (by simpa using List.find?_eq_none.mp hnone target htarget)
  | some name =>
    rw [Ctx.reaches, role?_ctx] at h
    dsimp only
    cases hlabel : labelNamed? name s with
    | none => simp [hlabel] at h
    | some label =>
      dsimp only
      split
      · exact ensures_pure rfl
      · next htag =>
        have hrole : s.role label = .loop := by simpa [hlabel, htag] using h
        cases hloop : label.loop? with
        | none =>
          rw [State.role, hloop, if_neg (by simp)] at hrole
          split at hrole <;> cases hrole
        | some target => exact ensures_pure rfl

/-- The word of a label behind a jump, if there is one. -/
theorem jumpLabel_reads {label? : Option String} {f : Option String → Reading β}
    (hmore : Resumes x.dialect P more)
    (hs : Fed x s₀ (label?.toList.map (fun name => ⟨nameSym name, (false : Bool)⟩)
      ++ x.words false false (.semicolon :: more)) s)
    (hf : ∀ s', Fed x s₀ (x.words false false (.semicolon :: more)) s' →
      Ensures True (f label?) s' Q) : Ensures True (jumpLabel >>= f) s Q := by
  refine Ensures.bind (P := fun r s' => r = label?
    ∧ Fed x s₀ (x.words false false (.semicolon :: more)) s') ?_ fun r s' ⟨hr, hs'⟩ => hr ▸ hf s' hs'
  refine ensures_get ?_
  dsimp only
  cases label? with
  | none =>
    have hs' : Fed x s₀ (x.words false false (.semicolon :: more)) s := hs
    have htag : s.current.tag ≠ .identifier := by
      rcases hs'.tag_end hmore with htag | htag | htag <;> simp [htag]
    rw [if_neg (by simp [htag])]
    exact ensures_pure ⟨rfl, hs'⟩
  | some name =>
    change Fed x s₀ (⟨nameSym name, (false : Bool)⟩ :: x.words false false (.semicolon :: more)) s
      at hs
    have hsym : s.current.sym = nameSym name := hs.sym (by simp [nameSym])
    have htag : s.current.tag = .identifier := congrArg Sym.tag hsym
    rw [if_pos (by simp [htag, hs.newline rfl])]
    refine hs.advance (by simp [nameSym]) fun s₁ hs₁ => ensures_pure ⟨?_, hs₁⟩
    rw [shown_eq hsym]

/-- The node of a label behind a jump, if there is one. -/
theorem labelNode_reads {label? : Option String} {line : Nat} {ws : List Word}
    (hname : ∀ name ∈ label?, IsName x.dialect name) {f : List Tree → Reading β}
    (hs : Fed x s₀ ws s)
    (hf : ∀ names s', Labelled x.dialect label? names → Fed x s₀ ws s' →
      Ensures True (f names) s' Q) : Ensures True (labelNode label? line >>= f) s Q := by
  refine Ensures.bind (P := fun names s' => Labelled x.dialect label? names ∧ Fed x s₀ ws s') ?_
    fun names s' h => hf names s' h.1 h.2
  cases label? with
  | none => exact ensures_pure ⟨rfl, hs⟩
  | some label =>
    refine hs.makeNode fun id s' _ hs' => ensures_pure ⟨⟨_, rfl, ?_⟩, hs'⟩
    exact ⟨Node.plain_identifier _ _, hname label rfl⟩

/-- A jump with its label, if it has one, up to the end of its statement. -/
theorem jumpStatement_ends {tag : Tag} {label? : Option String} (htag : tag ≠ .regExp)
    (hreaches : s₀.ctx.reaches tag label? = true) (hname : ∀ name ∈ label?, IsName x.dialect name)
    (hmore : Resumes x.dialect P more)
    (hs : Fed x s₀.settle (⟨⟨tag, none, none⟩, b⟩
      :: (label?.toList.map (fun name => ⟨nameSym name, (false : Bool)⟩)
        ++ x.words false false (.semicolon :: more))) s) :
    Ensures True jumpStatement s fun t' s' => (∃ id target line names, t'
        = .node id (.jump tag label? target line) names ∧ Labelled x.dialect label? names)
      ∧ Fed x s₀.settle (x.words true false more) s' := by
  have hcurrent : s.current.tag = tag := hs.tag_eq htag
  refine hs.advance htag fun s₁ hs₁ => jumpLabel_reads hmore hs₁ fun s₂ hs₂ => ?_
  have hctx : s₂.ctx = s₀.ctx.settled := hs₂.kept.ctx.trans (ctx_settle s₀)
  rw [hcurrent]
  refine destination_reads (by rwa [hctx, reaches_settled]) fun target => ?_
  refine hs₂.freshId fun id s₃ _ _ _ hs₃ => ?_
  refine labelNode_reads hname hs₃ fun names s₄ hnames hs₄ => ensures_modify ?_
  have hjumps : Fed x s₀.settle (x.words false false (.semicolon :: more))
      { s₄ with jumps := s₄.jumps ++ [(target, id)] } :=
    hs₄.same rfl rfl rfl ⟨rfl, Nat.le_refl _⟩
  exact hjumps.endStatement hmore fun s₅ hs₅ =>
    ensures_pure ⟨⟨id, target, _, names, rfl, hnames⟩, hs₅⟩

theorem regains_labelled {d : Dialect} {label? : Option String} {names' : List Tree}
    (h : Labelled d label? names) (h' : Labelled d label? names') :
    List.Forall₂ x.Regains names names' := by
  cases label? with
  | none =>
    obtain rfl : names = [] := h
    obtain rfl : names' = [] := h'
    exact .nil
  | some label =>
    obtain ⟨name, rfl, hname⟩ := h
    obtain ⟨name', rfl, ⟨hdata', -⟩⟩ := h'
    obtain ⟨hdata, -⟩ := hname
    exact .cons (regains_node hdata hdata' (by simp) .nil) .nil

theorem bareSteps_labelled {d : Dialect} {o : RenderOptions} {tag : Tag} {label? : Option String}
    (h : data.core = { tag := tag }) (ht : tag = .kwBreak ∨ tag = .kwContinue)
    (hnames : Labelled d label? names) : bareSteps o (.node id data names)
      = .token tag.spelling :: (label?.toList.map (.token ·) ++ [.semicolon]) := by
  cases label? with
  | none =>
    obtain rfl : names = [] := hnames
    exact bareSteps_keyword h (by rcases ht with rfl | rfl <;> simp)
  | some label =>
    obtain ⟨name, rfl, hname⟩ := hnames
    exact bareSteps_jump h ht hname

theorem Labelled.named {d : Dialect} {label? : Option String} (h : Labelled d label? names) :
    ∀ name ∈ label?, IsName d name := by
  rintro name ⟨rfl⟩
  obtain ⟨nameTree, rfl, -, hname⟩ := h
  exact hname

/-- A jump, with its label if it has one. -/
theorem jumpStatement_yields {tag : Tag} {label? : Option String} (h : data.Remarked { tag := tag })
    (ht : tag = .kwBreak ∨ tag = .kwContinue) (hreaches : ctx.reaches tag label? = true)
    (hnames : Labelled x.dialect label? names)
    (hformed : Formed x.dialect (.statement ctx top) (.node id data names)) :
    StatementYields x ctx top (.node id data names) := by
  have htag : data.tag = tag := congrArg Core.tag h.core
  have hname := hnames.named
  refine .of_bare hformed ?_ fun {s₀ b more n s} hctx hmore hn hs => ensures_get ?_
  · change data.tag ≠ _
    rcases ht with rfl | rfl <;> simp [htag]
  have hsteps : bareSteps x.o (.node id data names) ++ more
      = .token tag.spelling :: (label?.toList.map (.token ·) ++ .semicolon :: more) := by
    rw [bareSteps_labelled h.core ht hnames]
    simp
  have hlabel : x.words false false (label?.toList.map (.token ·) ++ .semicolon :: more)
      = label?.toList.map (fun name => ⟨nameSym name, (false : Bool)⟩)
        ++ x.words false false (.semicolon :: more) := by
    cases label? with
    | none => rfl
    | some label => exact x.words_lexeme (hname label rfl) (.semicolon :: more)
  rw [hsteps, x.words_text tag.spelling tag (by rcases ht with rfl | rfl <;> decide)
    (by rcases ht with rfl | rfl <;> rfl), hlabel] at hs
  have hr : tag ≠ .regExp := by rcases ht with rfl | rfl <;> simp
  have hread := jumpStatement_ends hr (by rwa [hctx]) hname hmore hs
  have hcurrent : s.current.tag = tag := hs.tag_eq hr
  have hgo : Ensures True jumpStatement s fun t' s' => x.Restates [] (.node id data names) t'
      ∧ Fed x s₀.settle (x.words true false more) s' := by
    refine hread.mono fun t' s' ⟨⟨id', target, line, names', ht', hnames'⟩, hs'⟩ => ⟨?_, hs'⟩
    rw [ht']
    have hplain := Node.plain_jump tag label? target line
    refine restates_node h hplain ?_ (regains_labelled hnames hnames') fun o _ => .of_eq ?_
    · rcases ht with rfl | rfl <;> simp
    rw [bareSteps_labelled h.core ht hnames, bareSteps_labelled hplain.core ht hnames']
  rcases ht with rfl | rfl <;> simpa only [hcurrent] using hgo

end
end ScriptPress.Grammar
