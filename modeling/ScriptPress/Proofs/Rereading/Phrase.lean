import ScriptPress.Proofs.Rereading.Functions

/-! # Phrases of statements

What statements share when they are read again: the semicolon at their end, expressions and
conditions in parentheses, and bodies, perhaps of a statement that jumps can go to.
-/
namespace ScriptPress.Grammar
open Lexer Render

section
variable {α β : Type} {x : Tape} {s₀ s : State} {t test : Tree} {ts ts' : List Tree}
  {id id' : NodeId} {data data' : Node} {c : Core} {ctx : Ctx} {top b noIn : Bool} {level n : Nat}
  {P : Sym → Prop} {ws rest : List Word} {more : List WriterStep} {f : α → Reading β}
  {Q : β → State → Prop}

/-! ## Statements that begin with a token of their own -/

theorem restates_node (h : data.Remarked c) (h' : data'.Plain c)
    (ht : c.tag ≠ .string ∧ c.tag ≠ .objectLit) (hall : List.Forall₂ x.Regains ts ts')
    (hdrawn : ∀ o, x.Suffices o →
      SameRun (bareSteps o (.node id' data' ts')) (bareSteps o (.node id data ts))) :
    x.Restates [] (.node id data ts) (.node id' data' ts') := by
  refine ⟨echoes_node h.core h'.core ht (echoes_all hall), h'.leading, ?_, hdrawn⟩
  change Tree.remarksAll ts' ++ data'.trailing = x.recalled (Tree.remarksAll ts ++ data.trailing)
  rw [h.trailing, h'.trailing, List.append_nil, List.append_nil]
  exact remarksAll_regains hall

/-- A statement that is no block has words of its own. -/
theorem StatementYields.of_bare (ht : Formed x.dialect (.statement ctx top) t)
    (hblock : t.tag ≠ .block)
    (h : ∀ {s₀ : State} {b : Bool} {more n s}, s₀.ctx = ctx →
      Resumes x.dialect (Trails t.endsOpen) more →
      (x.words b false (bareSteps x.o t ++ more)).length ≤ n →
      Fed x s₀.settle (x.words b false (bareSteps x.o t ++ more)) s →
      Ensures True ((nested n).bareStatement top s₀.pendingLabels) s fun t' s' =>
        x.Restates [] t t' ∧ Fed x s₀.settle (x.words true false more) s') :
    StatementYields x ctx top t :=
  ⟨fun {_ b more} hctx hmore => ⟨x.shorter ht.starts.opens b true more, fun _ _ hn hs =>
    h hctx hmore hn hs⟩, fun htag => absurd htag hblock⟩

/-! ## Semicolons -/

/-- What stands behind a statement that ends in a semicolon. -/
theorem words_end (hmore : Resumes x.dialect P more) :
    (x.words false false (.semicolon :: more) = x.words false false more
        ∧ ∀ w ∈ (x.words false false more).head?, w.sym = ⟨.rightBrace, none, none⟩)
      ∨ ∃ b : Bool, x.words false false (.semicolon :: more)
        = ⟨⟨.semicolon, none, none⟩, b⟩ :: x.words false false more := by
  rw [Tape.words, words_semicolon]
  split
  · next hcompact =>
    refine hmore.settles.imp_right fun hlead => ?_
    obtain ⟨⟨breaks, remarks⟩, hremarks, hwords⟩ := hlead
    obtain rfl : remarks = [] := hremarks hcompact
    exact ⟨breaks, hwords⟩
  · exact .inr ⟨false, rfl⟩

/-- No expression goes on behind a statement that ends in a semicolon. -/
theorem stops_end (hmore : Resumes x.dialect P more) :
    Stops level noIn (x.words false false (.semicolon :: more)) := by
  have hnone : ∀ tag ∈ closers, ∀ noIn, goesOn noIn ⟨tag, none, none⟩ = none := by decide
  intro w hw k hk
  rcases words_end hmore with ⟨hsame, hbrace⟩ | ⟨lead, hwords⟩
  · rw [hsame] at hw
    rw [hbrace w hw, hnone .rightBrace (by decide)] at hk
    cases hk
  · rw [hwords] at hw
    obtain rfl := Option.some.inj hw
    rw [hnone .semicolon (by decide)] at hk
    cases hk

/-- The current token at the end of a statement. -/
theorem Fed.tag_end (h : Fed x s₀ (x.words false false (.semicolon :: more)) s)
    (hmore : Resumes x.dialect P more) :
    s.current.tag = .semicolon ∨ s.current.tag = .rightBrace ∨ s.current.tag = .endOfInput := by
  rcases words_end hmore with ⟨hsame, hbrace⟩ | ⟨b, hwords⟩
  · rw [hsame] at h
    cases hws : x.words false false more with
    | nil =>
      rw [hws] at h
      exact .inr (.inr h.tag_nil)
    | cons w ws =>
      rw [hws] at h hbrace
      have hw := hbrace w rfl
      exact .inr (.inl ((h.tag_eq (by simp [hw])).trans (congrArg Sym.tag hw)))
  · rw [hwords] at h
    exact .inl (h.tag_eq (by simp))

/-- The end of a statement takes its semicolon, or finds that a brace or the end of the text stands
for it. -/
theorem Fed.endStatement {f : Unit → Reading β}
    (h : Fed x s₀ (x.words false false (.semicolon :: more)) s) (hmore : Resumes x.dialect P more)
    (hf : ∀ s', Fed x s₀ (x.words true false more) s' → Ensures True (f ()) s' Q) :
    Ensures True (Grammar.endStatement >>= f) s Q := by
  refine Ensures.bind (P := fun _ => Fed x s₀ (x.words true false more)) ?_ fun _ s' hs' => hf s' hs'
  have hloose := x.loosens_breaks false false more
  have htag := h.tag_end hmore
  refine ensures_get ?_
  rcases words_end hmore with ⟨hsame, hbrace⟩ | ⟨b, hwords⟩
  · have hnone : s.current.tag ≠ .semicolon := by
      rw [hsame] at h
      exact h.head_ne (fun w hw => by simp [hbrace w hw]) (by decide)
    rw [if_neg (by simp [hnone]), if_pos (by rcases htag with htag | htag | htag <;> simp_all)]
    refine ensures_modify ?_
    have homitted : Fed x s₀ (x.words false false more)
        { s with omitted := s.omitted ++ [s.previousStop] } := by
      rw [hsame] at h
      exact h.same rfl rfl rfl ⟨rfl, Nat.le_refl _⟩
    exact homitted.warn fun s' hs' => ensures_pure (hs'.loosen hloose)
  · rw [hwords] at h
    have htag : s.current.tag = .semicolon := h.tag_eq (by simp)
    rw [if_pos (by simp [htag])]
    exact h.advance (by simp) fun s' hs' => ensures_pure (hs'.loosen hloose)

/-- Behind a `do` the semicolon is taken if there is one. -/
theorem Fed.acceptSemicolon {f : Bool → Reading β}
    (h : Fed x s₀ (x.words false false (.semicolon :: more)) s) (hmore : Resumes x.dialect P more)
    (hf : ∀ b s', Fed x s₀ (x.words true false more) s' → Ensures True (f b) s' Q) :
    Ensures True (Grammar.accept .semicolon >>= f) s Q := by
  have hloose := x.loosens_breaks false false more
  rcases words_end hmore with ⟨hsame, hbrace⟩ | ⟨b, hwords⟩
  · rw [hsame] at h
    refine ensures_accept_none ?_ (hf false s (h.loosen hloose))
    exact h.head_ne (fun w hw => by simp [hbrace w hw]) (by decide)
  · rw [hwords] at h
    exact h.accept rfl (by decide) fun s' hs' => hf true s' (hs'.loosen hloose)

/-! ## Expressions in statements -/

/-- An expression as far as the words behind it go on with none. -/
theorem ExprYields.expression (ht : ExprYields x t) (place : Place)
    (huse : place.use = .operand Precedence.comma) (hnoIn : noIn = true → place.noIn = true)
    (hs : Stops Precedence.comma noIn (x.words false false more)) (n : Nat) :
    Takes x s₀ n ((nested n).expression noIn) (x.words b false (exprAt x.o t place ++ more))
      (x.Redraws t) (x.words false false more) := by
  have hread : Yields x s₀ (readerAt noIn Precedence.comma) _ _ _ :=
    ht.operand s₀ noIn place b more huse (by decide) hnoIn hs
  exact hread.inner (nests_expression noIn) n

/-- An expression in front of a sign that closes it. -/
theorem ExprYields.enclosed (ht : ExprYields x t) (text : String) (tag : Tag)
    (hclose : tag ∈ closers ∧ tag ∈ everywhere ∧ signText tag none = text) (b : Bool)
    (more : List WriterStep) (n : Nat) :
    Takes x s₀ n ((nested n).expression false)
      (x.words b false (exprAt x.o t { use := .operand Precedence.comma } ++ .token text :: more))
      (x.Redraws t) (⟨⟨tag, none, none⟩, false⟩ :: x.words false false more) := by
  have hwords : x.words false false (.token text :: more)
      = ⟨⟨tag, none, none⟩, false⟩ :: x.words false false more :=
    x.words_text text tag hclose.2.1 hclose.2.2 more
  rw [← hwords]
  refine ht.expression { use := .operand Precedence.comma } rfl (fun h => h) ?_ n
  rw [hwords]
  exact stops_closer hclose.1

/-- A condition with its parentheses. -/
theorem condition_yields (htest : ExprYields x test) (keyword : Tag) (s₀ : State) (b : Bool)
    (more : List WriterStep) :
    Yields x s₀ (·.condition keyword) (x.words b false (.token "("
        :: (exprAt x.o test { use := .operand Precedence.comma } ++ .token ")" :: more)))
      (x.Redraws test) (x.words false false more) := by
  have hread : ∀ n, Takes x s₀ n ((nested n).expression false) _ _ _ := fun n =>
    htest.enclosed ")" .rightParen (by decide) false more n
  have hlt := (hread 0).shorter
  rw [x.words_text "(" .leftParen (by decide) rfl]
  refine ⟨Nat.lt_succ_of_lt (Nat.lt_of_succ_lt hlt), fun n s hn hs => ?_⟩
  refine hs.expect rfl (by decide) fun s₁ hs₁ => ?_
  refine (hread n).bind hn hs₁ fun test' s₂ htest' hs₂ => ?_
  have hlast : ∀ s₃, Fed x s₀ (⟨⟨.rightParen, none, none⟩, false⟩ :: x.words false false more) s₃ →
      Ensures True (expect .rightParen .parenAfterCondition >>= fun _ => pure test') s₃
        fun t s' => x.Redraws test t ∧ Fed x s₀ (x.words false false more) s' := fun s₃ hs₃ =>
    hs₃.expect rfl (by decide) fun s₄ hs₄ => ensures_pure ⟨htest', hs₄⟩
  dsimp only
  split
  · exact hs₂.warn hlast
  · exact hlast s₂ hs₂

/-! ## Bodies -/

/-- The body of a statement, which is settled. -/
theorem StatementYields.inner (h : StatementYields x ctx top t)
    (ht : Formed x.dialect (.statement ctx top) t) (hctx : s₀.ctx = ctx)
    (hpending : s₀.pendingLabels = []) (hmore : Resumes x.dialect (Trails t.endsOpen) more) (n : Nat) :
    Takes x s₀ n ((nested n).statement top) (x.words b false (statementAt x.o t .body ++ more))
      (x.Replays .body t) (x.words true false more) :=
  (h.bodied ht hctx hpending hmore b).inner (nests_statement top) n

/-- What is read inside a target leaves the targets and labels as they were. -/
theorem withTarget_reads {m : Reading α} {P : α → Prop} {isLoop : Bool} {pending : List NodeId}
    (hm : ∀ s₁ : State, s₁ = s.within id isLoop pending → Fed x s₁ ws s₁ →
      Ensures True m s₁ fun a s' => P a ∧ Fed x s₁ rest s')
    (hs : Fed x s₀ ws s)
    (hf : ∀ a s', P a → Fed x s₀ rest s' → Ensures True (f a) s' Q) :
    Ensures True (withTarget id isLoop pending m >>= f) s Q := by
  refine Ensures.bind (P := fun a s' => P a ∧ Fed x s₀ rest s') ?_ fun a s' h => hf a s' h.1 h.2
  refine ensures_get (ensures_set ?_)
  have hwithin : Fed x (s.within id isLoop pending) ws (s.within id isLoop pending) := by
    refine hs.rebase (fun l hl => ?_) rfl rfl rfl
    simp only [State.within] at hl
    split at hl
    · obtain ⟨l', hl', rfl⟩ := List.mem_map.mp hl
      have hid : (l'.before pending id).id = l'.id := by
        unfold LabelEntry.before
        split <;> rfl
      rw [hid]
      exact hs.labels_lt l' hl'
    · exact hs.labels_lt l hl
  refine (hm _ rfl hwithin).bind fun a s₁ hread => ?_
  obtain ⟨ha, hs₁⟩ := hread
  refine ensures_modify (ensures_pure ⟨ha, ?_⟩)
  refine hs.restore hs₁ (Nat.le_refl _) rfl rfl rfl rfl ?_
  have hdialect : s₁.lexer.dialect = s.lexer.dialect := hs₁.kept.dialect
  have hpending : s₁.pendingLabels = s.pendingLabels := hs₁.kept.pendingLabels
  have hfunction : s₁.scope.function? = s.scope.function? := hs₁.kept.function?
  rw [← hs.kept.frame]
  simp only [State.frame, hdialect, hpending, hfunction]

/-- The body of a loop. -/
theorem loopBody_reads (h : StatementYields x s₀.ctx.inLoop false t)
    (ht : Formed x.dialect (.statement s₀.ctx.inLoop false) t)
    (hmore : Resumes x.dialect (Trails t.endsOpen) more) {f : Tree → Reading β}
    (hn : (x.words b false (statementAt x.o t .body ++ more)).length < n)
    (hs : Fed x s₀.settle (x.words b false (statementAt x.o t .body ++ more)) s)
    (hf : ∀ t' s', x.Replays .body t t' → Fed x s₀.settle (x.words true false more) s' →
      Ensures True (f t') s' Q) :
    Ensures True (withTarget id true s₀.pendingLabels ((nested n).statement false) >>= f) s Q := by
  refine withTarget_reads (fun s₁ hs₁ hfed => ?_) hs hf
  refine (h.inner ht ?_ ?_ hmore n).ensures s₁ hn hfed
  · rw [hs₁]
    exact ctx_loop hs.kept id
  · rw [hs₁]
    exact hs.kept.pendingLabels

end
end ScriptPress.Grammar
