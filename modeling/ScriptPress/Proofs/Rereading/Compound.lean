import ScriptPress.Proofs.Rereading.Simple
import ScriptPress.Proofs.Rereading.Literal

/-! # Reading compound statements again

Conditions, loops, objects in scope and labels, each with the statements in it.
-/
namespace ScriptPress.Grammar
open Lexer Render

section
variable {β : Type} {x : Tape} {o : RenderOptions} {s₀ s : State} {t test body yes no object : Tree}
  {id : NodeId} {data : Node} {ctx : Ctx} {top b : Bool} {n : Nat} {more mid zs : List WriterStep}
  {P : Sym → Prop} {Q : β → State → Prop}

/-! ## Headers -/

theorem header_append (keyword : String) (test : Tree) (mid : List WriterStep) :
    headerAt o keyword test mid ++ more = .token keyword :: .space :: .token "("
      :: (exprAt o test { use := .operand Precedence.comma } ++ .token ")" :: (mid ++ more)) := by
  simp [headerAt, headed]

theorem headerAt_same {test' : Tree} {keyword : String} (ho : x.Suffices o)
    (htest : x.Redraws test test') (h : SameRun zs mid) :
    SameRun (headerAt o keyword test' zs) (headerAt o keyword test mid) :=
  (SameRun.append (.refl _) (htest.drawn o ho _)).append (.cons _ h)

theorem words_header (x : Tape) (lead : Lead) (keyword : String) (tag : Tag)
    (hsign : IsSign x.dialect tag none) (ht : signText tag none = keyword) (test : Tree) :
    x.words lead false (headerAt x.o keyword test mid ++ more)
      = ⟨⟨tag, none, none⟩, lead⟩ :: x.words false false (.token "("
        :: (exprAt x.o test { use := .operand Precedence.comma } ++ .token ")" :: (mid ++ more))) := by
  rw [header_append, x.words_spelled keyword hsign ht, x.words_space]

/-- An `else` behind a statement belongs to it when it belongs to the statement at its end. -/
theorem endsOpen_body {ts : List Tree} (h : data.tag ∈ [Tag.kwWhile, .kwWith, .kwFor, .forIn, .label])
    (hlast : Tree.lastEndsOpen ts = body.endsOpen) :
    (Tree.node id data ts).endsOpen = body.endsOpen := by
  rw [Tree.endsOpen, ← hlast]
  simp only [List.mem_cons, List.not_mem_nil, or_false] at h
  rcases h with h | h | h | h | h <;> rw [h]

/-! ## Objects in scope and conditions -/

theorem withStatement_yields (h : data.Remarked { tag := .kwWith })
    (hobject : Formed x.dialect .expr object) (hbody : Formed x.dialect (.statement ctx.settled false) body)
    (ih : ExprYields x object) (ih' : StatementYields x ctx.settled false body) :
    StatementYields x ctx top (.node id data [object, body]) := by
  have htag : data.tag = .kwWith := congrArg Core.tag h.core
  refine .of_bare (.with h hobject hbody) (by change data.tag ≠ _; simp [htag])
    fun {s₀ b more n s} hctx hmore hn hs => ensures_get ?_
  rw [endsOpen_body (by simp [htag]) rfl] at hmore
  rw [bareSteps_with h.core, words_header x b "with" .kwWith (isSign_everywhere (by decide)) rfl,
    x.words_text "(" .leftParen (by decide) rfl] at hn hs
  have hcurrent : s.current.tag = .kwWith := hs.tag_eq (by simp)
  simp only [hcurrent]
  refine hs.advance (by simp) fun s₁ hs₁ => hs₁.expect rfl (by decide) fun s₂ hs₂ => ?_
  have hread : Takes x s₀.settle n ((nested n).expression false) _ _ _ :=
    ih.enclosed ")" .rightParen (by decide) false (statementAt x.o body .body ++ more) n
  have hlt := hread.shorter
  simp only [List.length_cons] at hn hlt
  refine hread.bind (by omega) hs₂ fun object' s₃ hobject' hs₃ => ?_
  refine hs₃.expect rfl (by decide) fun s₄ hs₄ => hs₄.modifyScope rfl fun s₅ hs₅ => ?_
  refine (ih'.inner hbody (by rw [ctx_settle, hctx]) rfl hmore n).bind (by omega) hs₅
    fun body' s₆ hbody' hs₆ => ?_
  refine hs₆.makeNode_last fun id' s₇ hs₇ => ⟨?_, hs₇⟩
  have hplain := Node.plain_leaf .kwWith s.current.line
  refine restates_node h hplain (by simp) (.cons hobject'.toRegains (.cons hbody'.toRegains .nil))
    fun o ho => ?_
  rw [bareSteps_with h.core, bareSteps_with hplain.core]
  exact headerAt_same ho hobject' (hbody'.drawn o ho)

theorem ifThen_yields (h : data.Remarked { tag := .kwIf }) (htest : Formed x.dialect .expr test)
    (hyes : Formed x.dialect (.statement ctx.settled false) yes) (ih : ExprYields x test)
    (ih' : StatementYields x ctx.settled false yes) :
    StatementYields x ctx top (.node id data [test, yes]) := by
  have htag : data.tag = .kwIf := congrArg Core.tag h.core
  refine .of_bare (.ifThen h htest hyes) (by change data.tag ≠ _; simp [htag])
    fun {s₀ b more n s} hctx hmore hn hs => ensures_get ?_
  have hopen : (Tree.node id data [test, yes]).endsOpen = true := by simp [Tree.endsOpen, htag]
  rw [hopen] at hmore
  rw [bareSteps_if h.core, ifSteps_then,
    words_header x b "if" .kwIf (isSign_everywhere (by decide)) rfl] at hn hs
  have hcurrent : s.current.tag = .kwIf := hs.tag_eq (by simp)
  simp only [hcurrent]
  refine hs.advance (by simp) fun s₁ hs₁ => ?_
  have hcond := condition_yields ih .kwIf s₀.settle false (statementAt x.o yes .body ++ more)
  have hlt := hcond.shorter
  simp only [List.length_cons] at hn
  refine (hcond.ensures n s₁ (by omega) hs₁).bind fun test' s₂ hread => ?_
  obtain ⟨htest', hs₂⟩ := hread
  refine (ih'.inner hyes (by rw [ctx_settle, hctx]) rfl (hmore.mono fun _ h => h.mono _) n).bind
    (by omega) hs₂ fun yes' s₃ hyes' hs₃ => ?_
  have helse : s₃.current.tag ≠ .kwElse :=
    hs₃.head_ne (fun w hw => (hmore.head w hw).closed rfl) (by decide)
  refine ensures_accept_none helse (ensures_let ?_)
  refine hs₃.makeNode_last fun id' s₄ hs₄ => ⟨?_, hs₄⟩
  have hplain := Node.plain_leaf .kwIf s.current.line
  refine restates_node h hplain (by simp) (.cons htest'.toRegains (.cons hyes'.toRegains .nil))
    fun o ho => ?_
  rw [bareSteps_if h.core, bareSteps_if hplain.core, ifSteps_then, ifSteps_then]
  exact headerAt_same ho htest' (hyes'.drawn o ho)

/-- What stands behind a body sets the next word off from it. -/
theorem words_afterBody (x : Tape) (t : Tree) (more : List WriterStep) :
    x.words true false (afterBody (part x.o t) :: more) = x.words true false more := by
  rw [afterBody]
  split <;> rfl

theorem afterBody_same {t' : Tree} (h : t'.tag = t.tag) :
    afterBody (part o t') = afterBody (part o t) := by
  rw [afterBody, afterBody, isBlock, isBlock, part_tag, part_tag, h]

theorem isMute_afterBody (t : Tree) : (afterBody (part o t)).isMute = true := by
  rw [afterBody]
  split <;> rfl

theorem ifElse_yields (h : data.Remarked { tag := .kwIf }) (htest : Formed x.dialect .expr test)
    (hyes : Formed x.dialect (.statement ctx.settled false) yes) (hclosed : yes.endsOpen = false)
    (hno : Formed x.dialect (.statement ctx.settled false) no) (ih : ExprYields x test)
    (ih' : StatementYields x ctx.settled false yes) (ih'' : StatementYields x ctx.settled false no) :
    StatementYields x ctx top (.node id data [test, yes, no]) := by
  have htag : data.tag = .kwIf := congrArg Core.tag h.core
  refine .of_bare (.ifElse h htest hyes hclosed hno) (by change data.tag ≠ _; simp [htag])
    fun {s₀ b more n s} hctx hmore hn hs => ensures_get ?_
  have hopen : (Tree.node id data [test, yes, no]).endsOpen = no.endsOpen := by
    simp [Tree.endsOpen, Tree.lastEndsOpen, htag]
  rw [hopen] at hmore
  have hsteps : bareSteps x.o (.node id data [test, yes, no]) ++ more
      = headerAt x.o "if" test [] ++ (statementAt x.o yes .body
        ++ afterBody (part x.o yes) :: .token "else" :: (statementAt x.o no .otherwise ++ more)) := by
    rw [bareSteps_if h.core, ifSteps_else]
    simp [headerAt]
  rw [hsteps, words_header x b "if" .kwIf (isSign_everywhere (by decide)) rfl,
    List.nil_append] at hn hs
  have hcurrent : s.current.tag = .kwIf := hs.tag_eq (by simp)
  simp only [hcurrent]
  refine hs.advance (by simp) fun s₁ hs₁ => ?_
  have hcond := condition_yields ih .kwIf s₀.settle false (statementAt x.o yes .body
    ++ afterBody (part x.o yes) :: .token "else" :: (statementAt x.o no .otherwise ++ more))
  have hlt := hcond.shorter
  simp only [List.length_cons] at hn
  refine (hcond.ensures n s₁ (by omega) hs₁).bind fun test' s₂ hread => ?_
  obtain ⟨htest', hs₂⟩ := hread
  have helse : IsSign x.dialect .kwElse none := isSign_everywhere (by decide)
  have hbetween : Resumes x.dialect (Trails yes.endsOpen) (afterBody (part x.o yes)
      :: .token "else" :: (statementAt x.o no .otherwise ++ more)) :=
    .skip (isMute_afterBody yes) (.heads (.sign helse ⟨⟨by simp, by simp⟩, by simp [hclosed]⟩))
  have hfirst : Takes x s₀.settle n ((nested n).statement false) _ _ _ :=
    ih'.inner (b := false) hyes (by rw [ctx_settle, hctx]) rfl hbetween n
  have hlt' := hfirst.shorter
  refine hfirst.bind (by omega) hs₂ fun yes' s₃ hyes' hs₃ => ?_
  rw [words_afterBody, x.words_spelled "else" helse rfl] at hs₃ hlt'
  refine hs₃.accept rfl (by decide) fun s₄ hs₄ => ?_
  have hother : Yields x s₀.settle (·.statementOf false) _ _ _ :=
    ih''.otherwise hno (by rw [ctx_settle, hctx]) rfl hmore false
  simp only [List.length_cons] at hlt'
  refine (hother.inner (nests_statement false) n).bind (by omega) hs₄ fun no' s₅ hno' hs₅ => ?_
  refine ensures_let (hs₅.makeNode_last fun id' s₆ hs₆ => ⟨?_, hs₆⟩)
  have hplain := Node.plain_leaf .kwIf s.current.line
  refine restates_node h hplain (by simp) (.cons htest'.toRegains (.cons hyes'.toRegains
    (.cons hno'.toRegains .nil))) fun o ho => ?_
  rw [bareSteps_if h.core, bareSteps_if hplain.core, ifSteps_else, ifSteps_else,
    afterBody_same hyes'.echo.tag]
  exact headerAt_same ho htest' ((hyes'.drawn o ho).append (.cons _ (.cons _ (hno'.drawn o ho))))

/-! ## Loops -/

theorem whileStatement_yields (h : data.Remarked { tag := .kwWhile })
    (htest : Formed x.dialect .expr test) (hbody : Formed x.dialect (.statement ctx.inLoop false) body)
    (ih : ExprYields x test) (ih' : StatementYields x ctx.inLoop false body) :
    StatementYields x ctx top (.node id data [test, body]) := by
  have htag : data.tag = .kwWhile := congrArg Core.tag h.core
  refine .of_bare (.while h htest hbody) (by change data.tag ≠ _; simp [htag])
    fun {s₀ b more n s} hctx hmore hn hs => ensures_get ?_
  subst hctx
  rw [endsOpen_body (by simp [htag]) rfl] at hmore
  rw [bareSteps_while h.core,
    words_header x b "while" .kwWhile (isSign_everywhere (by decide)) rfl] at hn hs
  have hcurrent : s.current.tag = .kwWhile := hs.tag_eq (by simp)
  simp only [hcurrent]
  refine hs.advance (by simp) fun s₁ hs₁ => hs₁.freshId fun id' s₂ _ _ _ hs₂ => ?_
  have hcond := condition_yields ih .kwWhile s₀.settle false (statementAt x.o body .body ++ more)
  have hlt := hcond.shorter
  simp only [List.length_cons] at hn
  refine (hcond.ensures n s₂ (by omega) hs₂).bind fun test' s₃ hread => ?_
  obtain ⟨htest', hs₃⟩ := hread
  refine loopBody_reads ih' hbody hmore (by omega) hs₃ fun body' s₄ hbody' hs₄ => ?_
  refine ensures_withJumps fun data' hdata => ⟨?_, hs₄⟩
  have hplain := (Node.plain_leaf .kwWhile s.current.line).of_agrees hdata
  refine restates_node h hplain (by simp) (.cons htest'.toRegains (.cons hbody'.toRegains .nil))
    fun o ho => ?_
  rw [bareSteps_while h.core, bareSteps_while hplain.core]
  exact headerAt_same ho htest' (hbody'.drawn o ho)

theorem doStatement_yields (h : data.Remarked { tag := .kwDo }) (hsign : IsSign x.dialect .kwDo none)
    (hbody : Formed x.dialect (.statement ctx.inLoop false) body) (htest : Formed x.dialect .expr test)
    (ih : StatementYields x ctx.inLoop false body) (ih' : ExprYields x test) :
    StatementYields x ctx top (.node id data [body, test]) := by
  have htag : data.tag = .kwDo := congrArg Core.tag h.core
  refine .of_bare (.doWhile h hsign hbody htest) (by change data.tag ≠ _; simp [htag])
    fun {s₀ b more n s} hctx hmore hn hs => ensures_get ?_
  subst hctx
  have hsteps : bareSteps x.o (.node id data [body, test]) ++ more
      = .token "do" :: (statementAt x.o body .body ++ afterBody (part x.o body)
        :: (headerAt x.o "while" test [] ++ .semicolon :: more)) := by
    rw [bareSteps_do h.core]
    simp [headerAt]
  rw [hsteps, x.words_spelled "do" hsign rfl] at hn hs
  have hcurrent : s.current.tag = .kwDo := hs.tag_eq (by simp)
  simp only [hcurrent]
  refine hs.advance (by simp) fun s₁ hs₁ => hs₁.freshId fun id' s₂ _ _ _ hs₂ => ?_
  have hwhile : IsSign x.dialect .kwWhile none := isSign_everywhere (by decide)
  have hbetween : Resumes x.dialect (Trails body.endsOpen) (afterBody (part x.o body)
      :: (headerAt x.o "while" test [] ++ .semicolon :: more)) :=
    .skip (isMute_afterBody body) (.heads (.sign hwhile ⟨⟨by simp, by simp⟩, fun _ => by simp⟩))
  simp only [List.length_cons] at hn
  refine loopBody_reads ih hbody hbetween (by omega) hs₂ fun body' s₃ hbody' hs₃ => ?_
  have hle := x.length_words_behind false true (statementAt x.o body .body)
    (afterBody (part x.o body) :: (headerAt x.o "while" test [] ++ .semicolon :: more))
  rw [words_afterBody, words_header x _ "while" .kwWhile hwhile rfl, List.nil_append] at hs₃ hle
  refine hs₃.expect rfl (by decide) fun s₄ hs₄ => ?_
  have hcond := condition_yields ih' .kwWhile s₀.settle false (.semicolon :: more)
  simp only [List.length_cons] at hle
  refine (hcond.ensures n s₄ (by omega) hs₄).bind fun test' s₅ hread => ?_
  obtain ⟨htest', hs₅⟩ := hread
  have hlast : ∀ s₆, Fed x s₀.settle (x.words true false more) s₆ →
      Ensures True (withJumps (.node id' (.leaf .kwDo s.current.line) [body', test'])) s₆
        fun t' s' => x.Restates [] (.node id data [body, test]) t'
          ∧ Fed x s₀.settle (x.words true false more) s' := by
    refine fun s₆ hs₆ => ensures_withJumps fun data' hdata => ⟨?_, hs₆⟩
    have hplain := (Node.plain_leaf .kwDo s.current.line).of_agrees hdata
    refine restates_node h hplain (by simp) (.cons hbody'.toRegains (.cons htest'.toRegains .nil))
      fun o ho => ?_
    rw [bareSteps_do h.core, bareSteps_do hplain.core, afterBody_same hbody'.echo.tag]
    exact (SameRun.cons _ (hbody'.drawn o ho)).append (.cons _ (headerAt_same ho htest' (.refl _)))
  exact hs₅.acceptSemicolon hmore fun b s₆ hs₆ => hlast s₆ hs₆

/-! ### Loop headers -/

/-- The first part of a loop header is read again in front of what ends it. -/
def StartYields (x : Tape) (t : Tree) : Prop :=
  ∀ {s₀ s : State} {n : Nat} {more : List WriterStep},
    Stops Precedence.comma true (x.words false false more) →
    (t.tag = .empty → ∃ zs, more = .token ";" :: zs) →
    (x.words false false (statementAt x.o t .loopStart ++ more)).length < n →
    Fed x s₀ (x.words false false (statementAt x.o t .loopStart ++ more)) s →
    Ensures True (nested n).forStart s fun t' s' =>
      x.Replays .loopStart t t' ∧ Fed x s₀ (x.words false false more) s'

theorem noStart_yields (h : data.Plain { tag := .empty }) : StartYields x (.node id data []) := by
  intro s₀ s n more _ hempty _ hs
  have htag : (Tree.node id data []).tag = .empty := congrArg Core.tag h.core
  obtain ⟨zs, rfl⟩ := hempty htag
  have hnone : ∀ {o id data}, (Tree.node id data []).tag = .empty →
      statementAt o (.node id data []) .loopStart = [] := fun htag => by
    rw [statementAt_loopStart, if_pos (by simp [htag])]
  rw [hnone htag, List.nil_append] at hs
  have hsemicolon : s.current.tag = .semicolon := by
    have hfaces := hs
    rw [x.words_text ";" .semicolon (by decide) rfl] at hfaces
    exact hfaces.tag_eq (by simp)
  refine ensures_get ?_
  rw [if_pos (by simp [hsemicolon])]
  refine hs.makeNode_last fun id' s₁ hs₁ => ⟨⟨?_, fun o _ => .of_eq ?_⟩, hs₁⟩
  · exact regains_node h (Node.plain_leaf .empty _) (by simp) .nil
  · rw [hnone htag, hnone rfl]

theorem statementAt_exprStart (h : t.tag ≠ .empty ∧ t.tag ≠ .kwVar) :
    statementAt o t .loopStart = exprAt o t { use := .operand Precedence.comma, noIn := true } := by
  rw [statementAt_loopStart, if_neg (by simpa using h.1), if_neg (by simpa using h.2)]

theorem exprStart_yields (hformed : Formed x.dialect .expr t) (ih : ExprYields x t) :
    StartYields x t := by
  intro s₀ s n more hstop _ hn hs
  obtain ⟨hempty, hvar, -⟩ := hformed.expr_tag
  rw [statementAt_exprStart ⟨hempty, hvar⟩] at hn hs
  have hne : ∀ tag ∈ [Tag.semicolon, .kwVar], s.current.tag ≠ tag := by
    have hall : ∀ tag ∈ [Tag.semicolon, .kwVar], tag ∉ operandTags ++ prefixTags
        ∧ tag ≠ .div ∧ tag ≠ .assign ∧ tag ≠ .endOfInput := by decide
    exact fun tag htag => hs.head_ne (expr_head hformed _ (hall tag htag).1) (hall tag htag).2
  refine ensures_get ?_
  rw [if_neg (by simp [hne .semicolon])]
  refine ensures_ifCheck (fun hvar' => absurd hvar' (hne _ (by simp))) fun _ => ?_
  have hread : Takes x s₀ n ((nested n).expression true) _ _ _ :=
    ih.expression (b := false) { use := .operand Precedence.comma, noIn := true } rfl (fun h => h)
      hstop n
  refine (hread.ensures s hn hs).mono fun t' s' ⟨ht', hs'⟩ => ⟨⟨ht'.toRegains, fun o ho => ?_⟩, hs'⟩
  have htag' : t'.tag = t.tag := ht'.echo.tag
  rw [statementAt_exprStart ⟨hempty, hvar⟩, statementAt_exprStart (by rw [htag']; exact ⟨hempty, hvar⟩)]
  exact ht'.drawn o ho _

theorem varStart_yields {names : List Tree} (h : data.Plain { tag := .kwVar }) (hne : names ≠ [])
    (hall : ∀ t ∈ names, DeclaredYields x t) : StartYields x (.node id data names) := by
  intro s₀ s n more hstop _ hn hs
  have hwritten : ∀ {o id data names}, Node.core data = { tag := .kwVar } →
      statementAt o (.node id data names) .loopStart = varAt o names true := by
    intro o id data names hcore
    have htag : (Tree.node id data names).tag = .kwVar := congrArg Core.tag hcore
    rw [statementAt_loopStart, if_neg (by simp [htag]), if_pos (by simp [htag])]
    rfl
  rw [hwritten h.core] at hn hs
  have hvar : s.current.tag = .kwVar := by
    have hfaces := hs
    rw [varAt, List.cons_append, x.words_text "var" .kwVar (by decide) rfl] at hfaces
    exact hfaces.tag_eq (by simp)
  refine ensures_get ?_
  rw [if_neg (by simp [hvar])]
  refine ensures_ifCheck (fun _ => ?_) fun hne => absurd hvar hne
  have hread := declarations_yields hne hall hstop s₀ false
  refine (hread.ensures n s (Nat.le_of_lt hn) hs).mono fun t' s' ht' => ?_
  obtain ⟨⟨id', line, names', rfl, hnames⟩, hs'⟩ := ht'
  have hplain := Node.plain_leaf .kwVar line
  refine ⟨⟨regains_node h hplain (by simp) (regains_replays hnames), fun o ho => ?_⟩, hs'⟩
  rw [hwritten h.core, hwritten hplain.core]
  exact varAt_same ho hnames

/-- A part of a header behind its semicolon. -/
def partAt (o : RenderOptions) (t : Tree) : List WriterStep :=
  if t.tag == .empty then [] else .space :: exprAt o t { use := .operand Precedence.comma }

theorem headerPartAt_eq (t : Tree) : headerPartAt o t = .token ";" :: partAt o t := by
  rw [headerPartAt, partAt]
  split <;> rfl

theorem partAt_same {t' : Tree} (ho : x.Suffices o) (h : x.Recasts t t') :
    SameRun (partAt o t') (partAt o t) := by
  have htag : t'.tag = t.tag := h.1.echo.tag
  rw [partAt, partAt, htag]
  split
  · exact .refl _
  · next hne => exact .cons _ ((h.2 (by simpa using hne)).drawn o ho _)

theorem part_cases {d : Dialect} (h : Formed d .part t) :
    (∃ id data, t = .node id data [] ∧ data.Plain { tag := .empty })
      ∨ (t.tag ≠ .empty ∧ Formed d .expr t) := by
  cases h with
  | noPart hdata => exact .inl ⟨_, _, rfl, hdata⟩
  | part ht => exact .inr ⟨ht.expr_tag.1, ht⟩

/-- A part of a header, in front of the sign behind it. -/
theorem headerPart_reads (hformed : Formed x.dialect .part t) (ih : t.tag ≠ .empty → ExprYields x t)
    (text : String) (tag : Tag) (hclose : tag ∈ closers ∧ tag ∈ everywhere ∧ signText tag none = text)
    (hn : (x.words false false (partAt x.o t ++ .token text :: more)).length < n)
    (hs : Fed x s₀ (x.words false false (partAt x.o t ++ .token text :: more)) s)
    {f : Tree → Reading β}
    (hf : ∀ t' s', x.Recasts t t' → Fed x s₀ (⟨⟨tag, none, none⟩, false⟩ :: x.words false false more) s' →
      Ensures True (f t') s' Q) :
    Ensures True (headerPart tag ((nested n).expression false) >>= f) s Q := by
  refine Ensures.bind (P := fun t' s' => x.Recasts t t'
    ∧ Fed x s₀ (⟨⟨tag, none, none⟩, false⟩ :: x.words false false more) s') (ensures_get ?_)
    fun t' s' h => hf t' s' h.1 h.2
  have hclosers : ∀ tag ∈ closers, tag ∉ operandTags ++ prefixTags ∧ tag ≠ .regExp
      ∧ tag ≠ .div ∧ tag ≠ .assign ∧ tag ≠ .endOfInput := by decide
  obtain ⟨hexpr, hr, hslash⟩ := hclosers tag hclose.1
  rcases part_cases hformed with ⟨id, data, rfl, hdata⟩ | ⟨hne, hformed⟩
  · have htag : (Tree.node id data []).tag = .empty := congrArg Core.tag hdata.core
    rw [partAt, if_pos (by simp [htag]), List.nil_append,
      x.words_text text tag hclose.2.1 hclose.2.2] at hs
    rw [if_pos (by simpa using hs.tag_eq hr)]
    refine hs.makeNode_last fun id' s₁ hs₁ => ⟨⟨?_, fun h => absurd htag h⟩, hs₁⟩
    exact regains_node hdata (Node.plain_leaf .empty _) (by simp) .nil
  · rw [partAt, if_neg (by simpa using hne), List.cons_append, x.words_space] at hn hs
    rw [if_neg (by simpa using hs.head_ne (expr_head hformed _ hexpr) hslash)]
    refine ((ih hne).enclosed text tag hclose false more n).ensures s hn hs |>.mono
      fun t' s' ht' => ⟨⟨ht'.1.toRegains, fun _ => ht'.1⟩, ht'.2⟩

/-! ### For loops -/

/-- A loop with a header in parentheses: its parts as they were read again, and its body. -/
structure Tape.Reloops (x : Tape) (start body : Tree) (R : Tree → Tag × List Tree → Prop)
    (t' : Tree) : Prop where
  node : ∃ id' data' start' tag header body', t' = .node id' data' (header ++ [body'])
    ∧ data'.Plain { tag := tag } ∧ x.Replays .loopStart start start' ∧ R start' (tag, header)
    ∧ x.Replays .body body body'

theorem forStatement_ends {start : Tree} {R : Tree → Tag × List Tree → Prop}
    (hstart : StartYields x start) (hmid : Stops Precedence.comma true (x.words false false mid))
    (hempty : start.tag = .empty → ∃ zs, mid = .token ";" :: zs)
    (hheader : ∀ start' s, x.Replays .loopStart start start' →
      Fed x s₀.settle (x.words false false mid) s →
      Ensures True ((nested n).forHeader start') s fun r s' => R start' r
        ∧ Fed x s₀.settle (⟨⟨.rightParen, none, none⟩, false⟩
          :: x.words false false (statementAt x.o body .body ++ more)) s')
    (hbody : Formed x.dialect (.statement s₀.ctx.inLoop false) body)
    (ih : StatementYields x s₀.ctx.inLoop false body)
    (hmore : Resumes x.dialect (Trails body.endsOpen) more)
    (hle : (x.words false false (statementAt x.o body .body ++ more)).length
      ≤ (x.words false false mid).length)
    (hn : (x.words b false (.token "for" :: .space :: .token "("
      :: (statementAt x.o start .loopStart ++ mid))).length ≤ n)
    (hs : Fed x s₀.settle (x.words b false (.token "for" :: .space :: .token "("
      :: (statementAt x.o start .loopStart ++ mid))) s) : Ensures True ((nested n).forStatement s₀.pendingLabels) s fun t' s' =>
        x.Reloops start body R t' ∧ Fed x s₀.settle (x.words true false more) s' := by
  have hle' := x.length_words_behind false false (statementAt x.o start .loopStart) mid
  rw [x.words_text "for" .kwFor (by decide) rfl, x.words_space,
    x.words_text "(" .leftParen (by decide) rfl] at hn hs
  simp only [List.length_cons] at hn
  refine hs.advance (by simp) fun s₁ hs₁ => hs₁.expect rfl (by decide) fun s₂ hs₂ => ?_
  refine (hstart hmid hempty (by omega) hs₂).bind fun start' s₃ hread => ?_
  obtain ⟨hstart', hs₃⟩ := hread
  refine (hheader start' s₃ hstart' hs₃).bind fun (tag, header) s₄ hread => ?_
  obtain ⟨hR, hs₄⟩ := hread
  refine hs₄.freshId fun id' s₅ _ _ _ hs₅ => hs₅.expect rfl (by decide) fun s₆ hs₆ => ?_
  refine loopBody_reads ih hbody hmore (by omega) hs₆ fun body' s₇ hbody' hs₇ => ?_
  refine ensures_withJumps fun data' hdata => ⟨⟨id', data', start', tag, header, body', rfl, ?_,
    hstart', hR, hbody'⟩, hs₇⟩
  exact (Node.plain_leaf tag s.current.line).of_agrees hdata

/-- The test and the update of a loop, up to the parenthesis behind them. -/
theorem forHeader_reads {start' update : Tree} (htest : Formed x.dialect .part test)
    (hupdate : Formed x.dialect .part update) (ih : test.tag ≠ .empty → ExprYields x test)
    (ih' : update.tag ≠ .empty → ExprYields x update)
    (hn : (x.words false false (.token ";" :: (partAt x.o test ++ .token ";"
      :: (partAt x.o update ++ .token ")" :: mid)))).length ≤ n)
    (hs : Fed x s₀ (x.words false false (.token ";" :: (partAt x.o test ++ .token ";"
      :: (partAt x.o update ++ .token ")" :: mid)))) s) :
    Ensures True ((nested n).forHeader start') s fun r s' =>
      (∃ test' update', r = (.kwFor, [start', test', update']) ∧ x.Recasts test test'
        ∧ x.Recasts update update')
      ∧ Fed x s₀ (⟨⟨.rightParen, none, none⟩, false⟩ :: x.words false false mid) s' := by
  have hle := x.length_words_behind false false (partAt x.o test ++ [.token ";"])
    (partAt x.o update ++ .token ")" :: mid)
  rw [List.append_assoc, List.singleton_append] at hle
  rw [x.words_text ";" .semicolon (by decide) rfl] at hn hs
  simp only [List.length_cons] at hn
  have hcurrent : s.current.tag = .semicolon := hs.tag_eq (by simp)
  refine ensures_ifCheck (fun hin => by rw [hcurrent] at hin; cases hin) fun _ => ?_
  refine hs.expect rfl (by decide) fun s₁ hs₁ => ?_
  refine headerPart_reads htest ih ";" .semicolon (by decide) (by omega) hs₁
    fun test' s₂ htest' hs₂ => ?_
  refine hs₂.expect rfl (by decide) fun s₃ hs₃ => ?_
  refine headerPart_reads hupdate ih' ")" .rightParen (by decide) (by omega) hs₃
    fun update' s₄ hupdate' hs₄ => ?_
  exact ensures_pure ⟨⟨test', update', rfl, htest', hupdate'⟩, hs₄⟩

theorem restates_for {start start' test' update update' body' : Tree} {data' : Node}
    (h : data.Remarked { tag := .kwFor }) (h' : data'.Plain { tag := .kwFor })
    (hstart : x.Replays .loopStart start start') (htest : x.Recasts test test')
    (hupdate : x.Recasts update update') (hbody : x.Replays .body body body') (id' : NodeId) :
    x.Restates [] (.node id data [start, test, update, body])
      (.node id' data' [start', test', update', body']) := by
  refine restates_node h h' (by simp) (.cons hstart.toRegains (.cons htest.1 (.cons hupdate.1
    (.cons hbody.toRegains .nil)))) fun o ho => ?_
  rw [bareSteps_for h.core, bareSteps_for h'.core]
  simp only [headerPartAt_eq]
  exact ((((SameRun.refl _).append (hstart.drawn o ho)).append
    (.cons _ (partAt_same ho htest))).append (.cons _ (partAt_same ho hupdate))).append
      (.cons _ (hbody.drawn o ho))

theorem forStatement_yields {start update : Tree} (h : data.Remarked { tag := .kwFor })
    (hstart : Formed x.dialect .start start) (htest : Formed x.dialect .part test)
    (hupdate : Formed x.dialect .part update)
    (hbody : Formed x.dialect (.statement ctx.inLoop false) body) (ih : StartYields x start)
    (ih' : test.tag ≠ .empty → ExprYields x test) (ih'' : update.tag ≠ .empty → ExprYields x update)
    (ih₃ : StatementYields x ctx.inLoop false body) :
    StatementYields x ctx top (.node id data [start, test, update, body]) := by
  have htag : data.tag = .kwFor := congrArg Core.tag h.core
  refine .of_bare (.for h hstart htest hupdate hbody) (by change data.tag ≠ _; simp [htag])
    fun {s₀ b more n s} hctx hmore hn hs => ensures_get ?_
  subst hctx
  rw [endsOpen_body (by simp [htag]) rfl] at hmore
  have hsteps : bareSteps x.o (.node id data [start, test, update, body]) ++ more
      = .token "for" :: .space :: .token "(" :: (statementAt x.o start .loopStart
        ++ .token ";" :: (partAt x.o test ++ .token ";" :: (partAt x.o update
          ++ .token ")" :: (statementAt x.o body .body ++ more)))) := by
    rw [bareSteps_for h.core, headerPartAt_eq, headerPartAt_eq]
    simp [headed]
  have hcurrent : s.current.tag = .kwFor := by
    have hfaces := hs
    rw [hsteps, x.words_text "for" .kwFor (by decide) rfl] at hfaces
    exact hfaces.tag_eq (by simp)
  simp only [hcurrent]
  rw [hsteps] at hn hs
  have hsemicolon : ∀ zs, x.words false false (.token ";" :: zs)
      = ⟨⟨.semicolon, none, none⟩, false⟩ :: x.words false false zs := fun zs =>
    x.words_text ";" .semicolon (by decide) rfl zs
  have hstop : ∀ zs, Stops Precedence.comma true (x.words false false (.token ";" :: zs)) :=
    fun zs => by
      rw [hsemicolon]
      exact stops_closer (by decide)
  have hle := x.length_words_behind false false
    (.token ";" :: (partAt x.o test ++ .token ";" :: (partAt x.o update ++ [.token ")"])))
    (statementAt x.o body .body ++ more)
  have hle' := x.length_words_behind false b (.token "for" :: .space :: .token "("
    :: statementAt x.o start .loopStart) (.token ";" :: (partAt x.o test ++ .token ";"
      :: (partAt x.o update ++ .token ")" :: (statementAt x.o body .body ++ more))))
  simp only [List.cons_append, List.append_assoc, List.nil_append] at hle hle'
  refine (forStatement_ends ih (hstop _) (fun _ => ⟨_, rfl⟩) (fun start' s _ hs =>
    forHeader_reads htest hupdate ih' ih'' (Nat.le_trans hle' hn) hs) hbody ih₃ hmore hle hn
      hs).mono fun t' s' hread => ?_
  obtain ⟨hloop, hs'⟩ := hread
  refine ⟨?_, hs'⟩
  obtain ⟨id', data', start', tag, header, body', rfl, hplain, hstart', hR, hbody'⟩ := hloop
  obtain ⟨test', update', hpair, htest', hupdate'⟩ := hR
  obtain ⟨rfl, rfl⟩ := Prod.mk.inj hpair
  exact restates_for h hplain hstart' htest' hupdate' hbody' id'

theorem isForInTarget_echo {start start' : Tree} (h : x.Echoes start start') :
    isForInTarget start' = isForInTarget start := by
  rw [isForInTarget, isForInTarget, h.tag, h.length]

/-- The object of a loop over names, up to the parenthesis behind it. -/
theorem forInHeader_reads {start' : Tree} (htarget : isForInTarget start' = true)
    (ih : ExprYields x object)
    (hn : (x.words false false (.token "in" :: (exprAt x.o object { use := .operand Precedence.comma }
      ++ .token ")" :: mid))).length ≤ n)
    (hs : Fed x s₀ (x.words false false (.token "in"
      :: (exprAt x.o object { use := .operand Precedence.comma } ++ .token ")" :: mid))) s) :
    Ensures True ((nested n).forHeader start') s fun r s' =>
      (∃ object', r = (.forIn, [start', object']) ∧ x.Redraws object object')
      ∧ Fed x s₀ (⟨⟨.rightParen, none, none⟩, false⟩ :: x.words false false mid) s' := by
  rw [x.words_text "in" .kwIn (by decide) rfl] at hn hs
  have hcurrent : s.current.tag = .kwIn := hs.tag_eq (by simp)
  refine ensures_ifCheck (fun _ => ?_) fun hne => absurd hcurrent hne
  rw [if_pos htarget]
  refine hs.advance (by simp) fun s₁ hs₁ => ?_
  exact (ih.enclosed ")" .rightParen (by decide) false mid n).bind hn hs₁
    fun object' s₂ hobject' hs₂ => ensures_pure ⟨⟨object', rfl, hobject'⟩, hs₂⟩

theorem restates_forIn {start start' object' body' : Tree} {data' : Node}
    (h : data.Remarked { tag := .forIn }) (h' : data'.Plain { tag := .forIn })
    (hstart : x.Replays .loopStart start start') (hobject : x.Redraws object object')
    (hbody : x.Replays .body body body') (id' : NodeId) :
    x.Restates [] (.node id data [start, object, body])
      (.node id' data' [start', object', body']) := by
  refine restates_node h h' (by simp) (.cons hstart.toRegains (.cons hobject.toRegains
    (.cons hbody.toRegains .nil))) fun o ho => ?_
  rw [bareSteps_forIn h.core, bareSteps_forIn h'.core]
  exact (((SameRun.refl _).append (hstart.drawn o ho)).append (.cons _ (hobject.drawn o ho _))).append
    (.cons _ (hbody.drawn o ho))

theorem forInStatement_yields {start : Tree} (h : data.Remarked { tag := .forIn })
    (hstart : Formed x.dialect .start start) (htarget : isForInTarget start = true)
    (hobject : Formed x.dialect .expr object)
    (hbody : Formed x.dialect (.statement ctx.inLoop false) body) (ih : StartYields x start)
    (ih' : ExprYields x object) (ih'' : StatementYields x ctx.inLoop false body) :
    StatementYields x ctx top (.node id data [start, object, body]) := by
  have htag : data.tag = .forIn := congrArg Core.tag h.core
  refine .of_bare (.forIn h hstart htarget hobject hbody) (by change data.tag ≠ _; simp [htag])
    fun {s₀ b more n s} hctx hmore hn hs => ensures_get ?_
  subst hctx
  rw [endsOpen_body (by simp [htag]) rfl] at hmore
  have hsteps : bareSteps x.o (.node id data [start, object, body]) ++ more
      = .token "for" :: .space :: .token "(" :: (statementAt x.o start .loopStart
        ++ .token "in" :: (exprAt x.o object { use := .operand Precedence.comma }
          ++ .token ")" :: (statementAt x.o body .body ++ more))) := by
    rw [bareSteps_forIn h.core]
    simp [headed]
  have hcurrent : s.current.tag = .kwFor := by
    have hfaces := hs
    rw [hsteps, x.words_text "for" .kwFor (by decide) rfl] at hfaces
    exact hfaces.tag_eq (by simp)
  simp only [hcurrent]
  rw [hsteps] at hn hs
  have hstop : ∀ zs, Stops Precedence.comma true (x.words false false (.token "in" :: zs)) :=
    fun zs => by
      rw [x.words_text "in" .kwIn (by decide) rfl]
      have hnone : goesOn true ⟨.kwIn, none, none⟩ = none := by decide
      exact .of_head fun k hk => by rw [hnone] at hk; cases hk
  have hempty : start.tag ≠ .empty := by
    intro hempty
    simp [isForInTarget, hempty, Tag.isAssignable] at htarget
  have hle := x.length_words_behind false false
    (.token "in" :: (exprAt x.o object { use := .operand Precedence.comma } ++ [.token ")"]))
    (statementAt x.o body .body ++ more)
  have hle' := x.length_words_behind false b (.token "for" :: .space :: .token "("
    :: statementAt x.o start .loopStart) (.token "in" ::
      (exprAt x.o object { use := .operand Precedence.comma }
        ++ .token ")" :: (statementAt x.o body .body ++ more)))
  simp only [List.cons_append, List.append_assoc, List.nil_append] at hle hle'
  refine (forStatement_ends ih (hstop _) (fun h => absurd h hempty) (fun start' s hstart' hs =>
    forInHeader_reads (by rwa [isForInTarget_echo hstart'.echo]) ih' (Nat.le_trans hle' hn) hs)
      hbody ih'' hmore hle hn hs).mono fun t' s' hread => ?_
  obtain ⟨hloop, hs'⟩ := hread
  refine ⟨?_, hs'⟩
  obtain ⟨id', data', start', tag, header, body', rfl, hplain, hstart', hR, hbody'⟩ := hloop
  obtain ⟨object', hpair, hobject'⟩ := hR
  obtain ⟨rfl, rfl⟩ := Prod.mk.inj hpair
  exact restates_forIn h hplain hstart' hobject' hbody' id'

/-! ## Labels -/

/-- A statement behind a label, which was read again from the colon on. -/
structure Tape.Relabels (x : Tape) (name : String) (body t' : Tree) : Prop where
  node : ∃ id' data' nameId line body', t'
      = .node id' data' [.node nameId (.identifier name line) [], body']
    ∧ data'.Plain { tag := .label } ∧ x.Replays (.listed true) body body'

theorem labelledStatement_ends {name : String} (hrole : s₀.ctx.role? name = none)
    (hbody : Formed x.dialect (.statement (s₀.ctx.labelled name) false) body)
    (ih : StatementYields x (s₀.ctx.labelled name) false body)
    (hmore : Resumes x.dialect (Trails body.endsOpen) more)
    (hn : (x.words false false (.token ":" :: .newline
      :: (statementAt x.o body (.listed true) ++ more))).length ≤ n)
    (hs : Fed x s₀.settle (x.words false false (.token ":" :: .newline
      :: (statementAt x.o body (.listed true) ++ more))) s) (line : Nat) :
    Ensures True ((nested n).labelledStatement name line s₀.pendingLabels) s fun t' s' =>
      x.Relabels name body t' ∧ Fed x s₀.settle (x.words true false more) s' := by
  have hnone : labelNamed? name s = none := by
    have hlabels : s.labels = s₀.labels := hs.kept.labels
    rw [role?_ctx, Option.map_eq_none_iff] at hrole
    rw [labelNamed?, hlabels]
    exact hrole
  have hcolon : x.words false false (.token ":" :: .newline
      :: (statementAt x.o body (.listed true) ++ more)) = ⟨⟨.colon, none, none⟩, false⟩
        :: x.words true false (statementAt x.o body (.listed true) ++ more) :=
    x.words_text ":" .colon (by decide) rfl _
  rw [hcolon] at hn hs
  refine ensures_get ?_
  rw [if_neg (by simp [hnone])]
  refine hs.advance (by simp) fun s₁ hs₁ => hs₁.freshId fun id s₂ hid hfresh hk hs₂ => ?_
  refine hs₂.makeNode fun nameId s₃ hk' hs₃ => ensures_get (ensures_set ?_)
  have hctx := ctx_labelled hs₁.labels_lt hs₁.kept name hid (hk.trans hk')
  have hlabelled : Fed x { s₃ with
      labels := ⟨name, id, none⟩ :: s₃.labels, pendingLabels := s₀.pendingLabels ++ [id] }
      (x.words true false (statementAt x.o body (.listed true) ++ more)) { s₃ with
      labels := ⟨name, id, none⟩ :: s₃.labels, pendingLabels := s₀.pendingLabels ++ [id] } :=
    hs₃.rebase (fun l hl => ?_) rfl rfl rfl
  · refine (ih.first hbody hctx hmore hn hlabelled).bind fun body' s₄ hread => ensures_modify ?_
    obtain ⟨hbody', hs₄⟩ := hread
    refine ensures_withJumps fun data' hdata => ⟨⟨id, data', nameId, line, body', rfl,
      (Node.plain_label name line).of_agrees hdata, hbody'⟩, ?_⟩
    refine hs₃.restore hs₄ (Nat.le_refl _) rfl rfl rfl rfl ?_
    have hdialect : s₄.lexer.dialect = s₃.lexer.dialect := hs₄.kept.dialect
    have htargets : s₄.targets = s₃.targets := hs₄.kept.targets
    have hfunction : s₄.scope.function? = s₃.scope.function? := hs₄.kept.function?
    have hpending : s₄.pendingLabels = s₃.pendingLabels :=
      hs₄.kept.pendingLabels.trans hs₃.kept.pendingLabels.symm
    rw [← hs₃.kept.frame]
    simp only [State.frame, hdialect, htargets, hfunction, hpending]
  · rcases List.mem_cons.mp hl with rfl | hl
    · exact Nat.lt_of_lt_of_le hfresh hk'.nextId
    · exact hs₃.labels_lt l hl

theorem restates_label {name : String} {nameTree body' : Tree} {data' : Node}
    (h : data.Remarked { tag := .label }) (h' : data'.Plain { tag := .label })
    (hname : IsNamed (IsName x.dialect) name nameTree) (hbody : x.Replays (.listed true) body body')
    (id' nameId : NodeId) (line : Nat) : x.Restates [] (.node id data [nameTree, body])
      (.node id' data' [.node nameId (.identifier name line) [], body']) := by
  have hnamed : IsNamed (fun _ => True) name (.node nameId (.identifier name line) []) :=
    ⟨Node.plain_identifier name line, trivial⟩
  refine restates_node h h' (by simp) (.cons (regains_named hname) (.cons hbody.toRegains .nil))
    fun o ho => ?_
  rw [bareSteps_label h.core hname, bareSteps_label h'.core hnamed]
  exact .cons _ (.cons _ (.cons _ (.cons _ (hbody.drawn o ho))))

/-- The name of a label is first read as an expression. -/
theorem labelName_yields {name : String} {nameTree : Tree}
    (hname : IsNamed (IsName x.dialect) name nameTree) (s₀ : State) (b : Bool)
    (mid : List WriterStep) : Yields x s₀ (readerAt false Precedence.comma)
      (x.words b false (.token name :: .token ":" :: mid)) (x.Redraws nameTree)
      (x.words false false (.token ":" :: mid)) := by
  have hstop : Stops Precedence.comma false (x.words false false (.token ":" :: mid)) := by
    rw [x.words_text ":" .colon (by decide) rfl]
    exact stops_closer (by decide)
  cases hname with | @mk nameId nameData hdata hlexeme =>
  have hread : ∀ place : Place, Yields x s₀ (readerAt false Precedence.comma)
      (x.words b false (bareAt x.o (.node nameId nameData []) place ++ .token ":" :: mid))
      (x.Redraws (.node nameId nameData [])) (x.words false false (.token ":" :: mid)) :=
    fun place => (name_yields hdata hlexeme).below (.leaf hdata (.name hlexeme)) (by decide)
      (precedence_pos _) (fun h => nomatch h) hstop
  have hplaced := hread { use := .operand Precedence.comma }
  rwa [bareAt_identifier hdata.core] at hplaced

theorem labelStatement_yields {name : String} {nameTree : Tree} (h : data.Remarked { tag := .label })
    (hname : IsNamed (IsName x.dialect) name nameTree) (hrole : ctx.role? name = none)
    (hbody : Formed x.dialect (.statement (ctx.labelled name) false) body)
    (ih : StatementYields x (ctx.labelled name) false body) :
    StatementYields x ctx top (.node id data [nameTree, body]) := by
  have htag : data.tag = .label := congrArg Core.tag h.core
  refine .of_bare (.label h hname hrole hbody) (by change data.tag ≠ _; simp [htag])
    fun {s₀ b more n s} hctx hmore hn hs => ?_
  subst hctx
  rw [endsOpen_body (by simp [htag]) rfl] at hmore
  have hsteps : x.words b false (bareSteps x.o (.node id data [nameTree, body]) ++ more)
      = x.words b false (.token name :: .token ":" :: .newline
        :: (statementAt x.o body (.listed true) ++ more)) := by
    rw [bareSteps_label h.core hname]
    rfl
  rw [hsteps] at hn hs
  have hlexeme : IsName x.dialect name ∧ nameTree.tag = .identifier := by
    obtain ⟨hdata, hlexeme⟩ := hname
    exact ⟨hlexeme, congrArg Core.tag hdata.core⟩
  have hsym : s.current.sym = nameSym name := by
    have hfaces := hs
    rw [x.words_lexeme hlexeme.1] at hfaces
    exact hfaces.sym (by simp)
  have hcurrent : s.current.tag = .identifier := congrArg Sym.tag hsym
  have hread := labelName_yields hname s₀.settle b
    (.newline :: (statementAt x.o body (.listed true) ++ more))
  refine ensures_simple (by rw [hcurrent]; decide) (ensures_get ?_)
  dsimp only
  rw [if_neg (by simp [hcurrent])]
  refine ensures_get ((hread.ensures n s hn hs).bind fun value s₁ hvalue => ?_)
  obtain ⟨hvalue, hs₁⟩ := hvalue
  have hcolon : s₁.current.tag = .colon := by
    have hfaces := hs₁
    rw [x.words_text ":" .colon (by decide) rfl] at hfaces
    exact hfaces.tag_eq (by simp)
  have hidentifier : value.tag = .identifier := hvalue.echo.tag.trans hlexeme.2
  refine ensures_check ?_
  rw [if_pos (by simp [hcurrent, hidentifier, hcolon]), shown_eq hsym]
  have hlast : ∀ s₂, Fed x s₀.settle (x.words false false (.token ":" :: .newline
      :: (statementAt x.o body (.listed true) ++ more))) s₂ →
      Ensures True ((nested n).labelledStatement name s.current.line s₀.pendingLabels) s₂
        fun t' s' => x.Restates [] (.node id data [nameTree, body]) t'
          ∧ Fed x s₀.settle (x.words true false more) s' := by
    intro s₂ hs₂
    refine (labelledStatement_ends hrole hbody ih hmore (Nat.le_trans (Nat.le_of_lt hread.shorter) hn)
      hs₂ _).mono fun t' s' ⟨⟨id', data', nameId, line, body', ht', hplain, hbody'⟩, hs'⟩ => ⟨?_, hs'⟩
    rw [ht']
    exact restates_label h hplain hname hbody' id' nameId line
  split
  · exact hlast s₁ hs₁
  · exact hs₁.modifyScope rfl hlast

end
end ScriptPress.Grammar
