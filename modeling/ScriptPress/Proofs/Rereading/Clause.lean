import ScriptPress.Proofs.Rereading.Compound

/-! # Reading switches again

A clause of a switch is a case with its test or the default, with statements up to the next clause.
The comments in front of a clause are its own; those behind the last one go to the switch.
-/
namespace ScriptPress.Grammar
open Lexer Render

section
variable {β : Type} {x : Tape} {o : RenderOptions} {s₀ s : State} {t value : Tree}
  {ts clauses done items : List Tree} {test? : Option Tree} {id : NodeId} {data data' : Node}
  {ctx : Ctx} {top b : Bool} {n : Nat} {more mid : List WriterStep} {Q : β → State → Prop}

/-! ## Heads of clauses -/

/-- The tag of a clause, which is the default without a test. -/
def clauseTag : Option Tree → Tag
  | some _ => .kwCase
  | none => .kwDefault

/-- What is written of a clause up to its colon. -/
def clauseHeadAt (o : RenderOptions) : Option Tree → List WriterStep
  | some test => .token "case" :: (exprAt o test { use := .operand Precedence.comma } ++ [.token ":"])
  | none => [.token "default", .token ":"]

theorem clauseTag_cases (test? : Option Tree) :
    clauseTag test? = .kwCase ∨ clauseTag test? = .kwDefault := by
  cases test? with
  | some test => exact .inl rfl
  | none => exact .inr rfl

theorem statementAt_clause {first : Bool} (h : data.core = { tag := clauseTag test? }) :
    statementAt o (.node id data (test?.toList ++ ts)) (.switchClause first)
      = clauseLead o data first ++ (clauseHeadAt o test? ++ listedAt o ts) := by
  cases test? with
  | some test =>
    rw [Option.toList_some, List.singleton_append, statementAt_case h, clauseHeadAt, listed_eq]
    simp
  | none =>
    rw [Option.toList_none, List.nil_append, statementAt_default h, clauseHeadAt, listed_eq]
    simp

/-- What is written of a clause begins with its keyword. -/
theorem heads_clause (hsign : IsSign x.dialect (clauseTag test?) none) :
    Heads x.dialect (·.tag = clauseTag test?) (clauseHeadAt x.o test?) := by
  cases test? with
  | some test => exact .sign hsign rfl
  | none => exact .sign hsign rfl

theorem clauseHead_reads (hsign : IsSign x.dialect (clauseTag test?) none)
    (ih : ∀ test ∈ test?, ExprYields x test) {hasDefault : Bool}
    (hdefault : test? = none → hasDefault = false)
    (hn : (x.words b false (clauseHeadAt x.o test? ++ more)).length < n)
    (hs : Fed x s₀ (x.words b false (clauseHeadAt x.o test? ++ more)) s) :
    Ensures True ((nested n).clauseHead hasDefault) s fun head s' =>
      (head.1.Plain { tag := clauseTag test? }
        ∧ ∃ test'?, head.2 = test'?.toList ∧ Option.Rel x.Redraws test? test'?)
      ∧ Fed x s₀ (x.words false false more) s' := by
  refine ensures_get ?_
  cases test? with
  | some test =>
    have hsteps : clauseHeadAt x.o (some test) ++ more = .token "case"
        :: (exprAt x.o test { use := .operand Precedence.comma } ++ .token ":" :: more) := by
      simp [clauseHeadAt]
    rw [hsteps, x.words_spelled "case" hsign rfl] at hn hs
    have hcurrent : s.current.tag = .kwCase := hs.tag_eq (by simp [clauseTag])
    simp only [hcurrent]
    refine hs.advance (by simp [clauseTag]) fun s₁ hs₁ => ?_
    refine ((ih test rfl).enclosed ":" .colon (by decide) false more n).bind
      (Nat.lt_of_succ_lt hn) hs₁ fun test' s₂ htest' hs₂ => ?_
    refine hs₂.expect rfl (by decide) fun s₃ hs₃ => ensures_pure ⟨⟨?_, some test', rfl, ?_⟩, hs₃⟩
    · exact Node.plain_leaf .kwCase s.current.line
    · exact .some htest'
  | none =>
    obtain rfl : hasDefault = false := hdefault rfl
    have hsteps : clauseHeadAt x.o none ++ more = .token "default" :: .token ":" :: more := rfl
    rw [hsteps, x.words_spelled "default" hsign rfl, x.words_text ":" .colon (by decide) rfl] at hs
    have hcurrent : s.current.tag = .kwDefault := hs.tag_eq (by simp [clauseTag])
    simp only [hcurrent]
    refine hs.advance (by simp [clauseTag]) fun s₁ hs₁ => hs₁.expect rfl (by decide) fun s₂ hs₂ => ?_
    exact ensures_pure ⟨⟨Node.plain_leaf .kwDefault s.current.line, none, rfl, .none⟩, hs₂⟩

/-! ## Clauses -/

/-- The tags that end the statements of a clause. -/
def closesClause (tag : Tag) : Bool :=
  tag == .kwCase || tag == .kwDefault || tag == .rightBrace || tag == .endOfInput

theorem endsAt_clause : EndsAt endsClause closesClause := ⟨fun _ => rfl, by decide, rfl⟩

/-- What stands behind a clause: another one, or the end of the switch. -/
def ClauseEnd (s : Sym) : Prop := closesClause s.tag = true ∧ Trails true s

theorem clauseEnd_tag {s : Sym} (h : s.tag = .kwCase ∨ s.tag = .kwDefault ∨ s.tag = .rightBrace) :
    ClauseEnd s := by
  have hall : ∀ tag ∈ [Tag.kwCase, .kwDefault, .rightBrace], closesClause tag = true
      ∧ tag ≠ .kwCatch ∧ tag ≠ .kwFinally ∧ tag ≠ .kwElse := by decide
  obtain ⟨hcloses, hcatch, hfinally, helse⟩ := hall s.tag (by simpa using h)
  exact ⟨hcloses, ⟨hcatch, hfinally⟩, fun _ => helse⟩

/-- A clause that was read again, wherever it stands among the clauses. -/
def Tape.Reclauses (x : Tape) (t t' : Tree) : Prop := ∀ first, x.Replays (.switchClause first) t t'

/-- A clause is read again behind others that were read. -/
def ClauseYields (x : Tape) (ctx : Ctx) (t : Tree) : Prop :=
  ∀ {s₀ s : State} {n : Nat} {b first : Bool} {more : List WriterStep} {items : List Tree},
    s₀.ctx = ctx → s₀.pendingLabels = [] → Resumes x.dialect ClauseEnd more →
    (t.tag = .kwDefault → items.any (·.tag == .kwDefault) = false) →
    (x.words b false (statementAt x.o t (.switchClause first) ++ more)).length < n →
    Fed x s₀ (x.words b false (statementAt x.o t (.switchClause first) ++ more)) s →
    Ensures True ((nested n).clauseTurn items) s fun turn s' =>
      ∃ t', turn = .again (items ++ [t']) ∧ x.Reclauses t t' ∧ Fed x s₀ (x.words true false more) s'

theorem holds_clause (x : Tape) (data : Node) (first : Bool) :
    x.Holds data.leading (clauseLead x.o data first) := by
  have hgap : x.Holds [] (labelGap x.o first) := by
    unfold labelGap
    split
    · exact .cons .nil rfl (by simp)
    · exact .nil
  have hlast : x.Holds [] [.setBackLine] := .cons .nil rfl (by simp)
  have hall : x.Holds _ (.newline :: _) :=
    ((hgap.append (.notes x data.leading)).append hlast).cons rfl (by simp)
  have hleading : leadingComments x.o data = notes x.o data.leading := rfl
  simpa [clauseLead, hleading] using hall

theorem clauseLead_same {first : Bool} (ho : x.Suffices o)
    (h : data'.leading = x.recalled data.leading) :
    clauseLead o data' first = clauseLead o data first := by
  have hleading : leadingComments o data' = leadingComments o data := by
    change notes o data'.leading = notes o data.leading
    rw [h, ho.notes]
  rw [clauseLead, clauseLead, hleading]

theorem regains_options {test'? : Option Tree} (h : Option.Rel x.Redraws test? test'?) :
    List.Forall₂ x.Regains test?.toList test'?.toList := by
  cases h with
  | some h => exact .cons h.toRegains .nil
  | none => exact .nil

theorem clauseHeadAt_same {test'? : Option Tree} (ho : x.Suffices o)
    (h : Option.Rel x.Redraws test? test'?) :
    SameRun (clauseHeadAt o test'?) (clauseHeadAt o test?) := by
  cases h with
  | some h => exact .cons _ ((h.drawn o ho _).behind _)
  | none => exact .refl _

/-- A clause that was read again with the comments in front of it. -/
theorem reclauses_node (h : data.Remarked { tag := clauseTag test? })
    (h' : data'.Plain { tag := clauseTag test? }) {test'? : Option Tree} {ts' : List Tree}
    (htest : Option.Rel x.Redraws test? test'?) (hts : x.Relists [] ts ts' []) (id' : NodeId) :
    x.Reclauses (.node id data (test?.toList ++ ts))
      (withComments .comments (x.recalled data.leading)
        (.node id' data' (test'?.toList ++ ts'))) := by
  intro first
  obtain ⟨data'', hnode, hcore, hleading, htrailing⟩ :=
    withComments_leading (x.recalled data.leading) id' data' (test'?.toList ++ ts') h'.leading
  have htests := regains_options htest
  have hremarks : Tree.remarksAll ts' = x.recalled (Tree.remarksAll ts) := by
    simpa using hts.remarks
  have hsame : clauseTag test'? = clauseTag test? := by cases htest <;> rfl
  rw [hnode]
  refine ⟨⟨echoes_node h.core (hcore.trans h'.core) ?_ ?_, ?_⟩, fun o ho => ?_⟩
  · rcases clauseTag_cases test? with htag | htag <;> simp [htag]
  · exact List.rel_append (echoes_all htests) hts.echo
  · rw [Tree.remarks, Tree.remarks, hleading, htrailing, h.trailing, h'.trailing,
      Tree.remarksAll_append, Tree.remarksAll_append, remarksAll_regains htests, hremarks]
    simp
  · rw [statementAt_clause h.core, statementAt_clause ((hcore.trans h'.core).trans (by rw [hsame])),
      clauseLead_same ho hleading]
    have hlisted : SameRun (listedAt o ts') (listedAt o ts) := by simpa using hts.drawn o ho
    exact (SameRun.refl _).append ((clauseHeadAt_same ho htest).append hlisted)

theorem clause_yields (hdata : data.Remarked { tag := clauseTag test? })
    (hsign : IsSign x.dialect (clauseTag test?) none) (ih : ∀ test ∈ test?, ExprYields x test)
    (hformed : ∀ t ∈ ts, Formed x.dialect (.statement ctx false) t)
    (hall : ∀ t ∈ ts, StatementYields x ctx false t) :
    ClauseYields x ctx (.node id data (test?.toList ++ ts)) := by
  intro s₀ s n b first more items hctx hpending hmore hdefault hn hs
  have hword := (heads_clause hsign).words x.o.compact (listedAt x.o ts ++ more)
  obtain ⟨sym, ws, hsym, hwords⟩ := hword
  have hloose := (holds_clause x data first).loosens b [] false
    (clauseHeadAt x.o test? ++ (listedAt x.o ts ++ more))
  rw [x.lead_nil, List.nil_append] at hloose
  rw [statementAt_clause hdata.core, List.append_assoc, List.append_assoc] at hn hs
  rw [hloose.length] at hn
  replace hs := hs.loosen hloose
  have hwords' : ∀ lead, x.words lead false (clauseHeadAt x.o test? ++ (listedAt x.o ts ++ more))
      = ⟨sym, lead⟩ :: ws := hwords
  rw [hwords'] at hn hs
  have hregExp : sym.tag ≠ .regExp := by
    rcases clauseTag_cases test? with htag | htag <;> simp [hsym, htag]
  have hcurrent : s.current.tag = clauseTag test? := (hs.tag_eq hregExp).trans hsym
  refine ensures_ifCheck (fun hbrace => ?_) fun _ => ?_
  · rw [hcurrent] at hbrace
    rcases clauseTag_cases test? with htag | htag <;> simp [htag] at hbrace
  refine hs.takeComments fun s₁ hs₁ => ?_
  rw [← hwords'] at hs₁
  have hlength : (x.words true false (clauseHeadAt x.o test?
      ++ (listedAt x.o ts ++ more))).length < n := by
    rw [hwords']
    exact hn
  refine (clauseHead_reads hsign ih (fun hnone => hdefault ?_) hlength hs₁).bind
    fun head s₂ hread => ?_
  · exact (congrArg Core.tag hdata.core).trans (by rw [hnone]; rfl)
  obtain ⟨⟨hplain, test'?, htests, htest⟩, hs₂⟩ := hread
  refine hs₂.freshId fun id' s₃ _ _ _ hs₃ => ?_
  have hle := x.length_words_behind true false (clauseHeadAt x.o test?) (listedAt x.o ts ++ more)
  rw [← x.lead_nil false] at hle hs₃
  have hlist := statements_read endsAt_clause hformed hall hctx hpending hmore
    (Nat.lt_of_le_of_lt hle hlength) hs₃ head.2
  refine hlist.bind fun statements s₄ hstatements => ensures_pure ?_
  obtain ⟨ts', left, rfl, hlists, hs₄⟩ := hstatements
  obtain rfl : left = [] := hlists.none rfl
  rw [x.lead_nil] at hs₄
  refine ⟨_, rfl, ?_, hs₄⟩
  rw [htests, Tape.lead, x.hears_noted]
  exact reclauses_node hdata hplain htest hlists id'

theorem case_yields {test : Tree} (hdata : data.Remarked { tag := .kwCase })
    (hsign : IsSign x.dialect .kwCase none) (ih : ExprYields x test)
    (hformed : ∀ t ∈ ts, Formed x.dialect (.statement ctx false) t)
    (hall : ∀ t ∈ ts, StatementYields x ctx false t) :
    ClauseYields x ctx (.node id data (test :: ts)) := by
  have htest : ∀ t ∈ some test, ExprYields x t := by
    rintro t ⟨rfl⟩
    exact ih
  have hdata' : data.Remarked { tag := clauseTag (some test) } := hdata
  have hsign' : IsSign x.dialect (clauseTag (some test)) none := hsign
  change ClauseYields x ctx (.node id data ((some test).toList ++ ts))
  exact clause_yields hdata' hsign' htest hformed hall

theorem default_yields (hdata : data.Remarked { tag := .kwDefault })
    (hsign : IsSign x.dialect .kwDefault none)
    (hformed : ∀ t ∈ ts, Formed x.dialect (.statement ctx false) t)
    (hall : ∀ t ∈ ts, StatementYields x ctx false t) : ClauseYields x ctx (.node id data ts) := by
  have hnone : ∀ test ∈ (none : Option Tree), ExprYields x test := nofun
  have hdata' : data.Remarked { tag := clauseTag none } := hdata
  have hsign' : IsSign x.dialect (clauseTag none) none := hsign
  change ClauseYields x ctx (.node id data ((none : Option Tree).toList ++ ts))
  exact clause_yields hdata' hsign' hnone hformed hall

/-! ## All clauses of a switch -/

theorem any_reclauses (h : List.Forall₂ x.Reclauses done items) :
    items.any (·.tag == .kwDefault) = done.any (·.tag == .kwDefault) := by
  induction h with
  | nil => rfl
  | cons ht _ ih => rw [List.any_cons, List.any_cons, ih, (ht true).echo.tag]

theorem default_new {t : Tree} (hone : ((done ++ t :: ts).filter (·.tag == .kwDefault)).length ≤ 1)
    (hdone : List.Forall₂ x.Reclauses done items) (ht : t.tag = .kwDefault) :
    items.any (·.tag == .kwDefault) = false := by
  have hnone : done.filter (·.tag == .kwDefault) = [] := by
    rw [List.filter_append, List.filter_cons, if_pos (by simp [ht])] at hone
    simp only [List.length_append, List.length_cons] at hone
    exact List.eq_nil_of_length_eq_zero (by omega)
  rw [any_reclauses hdone, List.any_eq_false]
  exact List.filter_eq_nil_iff.mp hnone

theorem clauses_read (hformed : ∀ t ∈ clauses, Formed x.dialect (.clause ctx) t)
    (hone : ((done ++ clauses).filter (·.tag == .kwDefault)).length ≤ 1)
    (hall : ∀ t ∈ clauses, ClauseYields x ctx t) (hctx : s₀.ctx = ctx)
    (hpending : s₀.pendingLabels = []) (hmore : Resumes x.dialect ClauseEnd more)
    (hclose : ∀ s, Fed x s₀ (x.words true false more) s → s.current.tag = .rightBrace)
    (b first : Bool) : Collects x s₀ n (nested n).clauseTurn
      (x.words b false (inOrder (fun first t => statementAt x.o t (.switchClause first)) first clauses
        ++ more))
      (List.Forall₂ x.Reclauses done) (List.Forall₂ x.Reclauses (done ++ clauses))
      (x.words true false more) := by
  induction clauses generalizing done b first with
  | nil =>
    refine .finish fun s items _ hitems hs => ?_
    have hend := hs.loosen (x.loosens_breaks b false more)
    refine ensures_ifCheck (fun _ => ?_) fun hno => absurd (hclose s hend) hno
    rw [List.append_nil]
    exact ensures_pure ⟨items, rfl, hitems, hend⟩
  | cons t clauses ih =>
    have hrest := @ih (done ++ [t]) (fun u hu => hformed u (List.mem_cons_of_mem t hu))
      (by rwa [List.append_assoc]) (fun u hu => hall u (List.mem_cons_of_mem t hu)) true false
    have hfollows : Resumes x.dialect ClauseEnd (inOrder
        (fun first t => statementAt x.o t (.switchClause first)) false clauses ++ more) := by
      cases clauses with
      | nil => exact hmore
      | cons u us =>
        rw [inOrder, List.append_assoc]
        refine .of_opens (((hformed u (by simp)).opens_clause false).mono fun s hs => ?_) _
        exact clauseEnd_tag (hs.imp_right .inl)
    have hsteps : inOrder (fun first t => statementAt x.o t (.switchClause first)) first (t :: clauses)
        ++ more = statementAt x.o t (.switchClause first) ++ (inOrder
          (fun first t => statementAt x.o t (.switchClause first)) false clauses ++ more) := by
      rw [inOrder, List.append_assoc]
    rw [hsteps, List.append_cons done t]
    refine hrest.turn (x.shorter ((hformed t (by simp)).opens_clause first) _ _ _)
      fun s items hn hitems hs => ?_
    refine (hall t (by simp) hctx hpending hfollows (default_new hone hitems) hn hs).mono
      fun turn s' hturn => ?_
    obtain ⟨t', rfl, ht', hs'⟩ := hturn
    exact ⟨_, rfl, forall₂_snoc hitems ht', hs'⟩

/-! ## Switches -/

theorem restates_switch {value' : Tree} {clauses' : List Tree}
    (h : data.Closed { tag := .kwSwitch }) (hcore : data'.core = { tag := .kwSwitch })
    (hleading : data'.leading = []) (htrailing : data'.trailing = x.recalled data.trailing)
    (hvalue : x.Redraws value value') (hclauses : List.Forall₂ x.Reclauses clauses clauses')
    (id' : NodeId) : x.Restates [] (.node id data (value :: clauses))
      (.node id' data' (value' :: clauses')) := by
  have hregains : List.Forall₂ x.Regains (value :: clauses) (value' :: clauses') :=
    .cons hvalue.toRegains (hclauses.imp fun _ _ h => (h true).toRegains)
  refine ⟨echoes_node h.core hcore (by simp) (echoes_all hregains), hleading, ?_, fun o ho => ?_⟩
  · change Tree.remarksAll (value' :: clauses') ++ data'.trailing
      = x.recalled (Tree.remarksAll (value :: clauses) ++ data.trailing)
    rw [remarksAll_regains hregains, htrailing, Tape.recalled_append]
  · have hlast : trailingComments o data' = trailingComments o data := by
      change notes o data'.trailing = notes o data.trailing
      rw [htrailing, ho.notes]
    have hwritten : SameRun (clausesAt o clauses') (clausesAt o clauses) := by
      rw [clausesAt_inOrder, clausesAt_inOrder]
      exact inOrder_same hclauses.flip fun _ _ ht first => (ht first).drawn o ho
    rw [bareSteps_switch h.core, bareSteps_switch hcore, hlast]
    exact ((headerAt_same ho hvalue (.cons _ (.cons _ (.cons _ hwritten)))).behind _).behind _

/-- Behind the clauses stand the comments of the switch and its brace. -/
theorem Fed.switchEnd (h : Fed x s₀ (x.words true false
      ((trailingComments x.o data ++ [.outdent, .newline]) ++ .token "\x7d" :: more)) s) :
    Fed x s₀ (⟨⟨.rightBrace, none, none⟩, x.lead true data.trailing⟩ :: x.words false false more) s := by
  have hloose := (holds_blockEnd x data).loosens true [] false (.token "\x7d" :: more)
  rw [x.lead_nil, List.nil_append, List.append_nil, x.words_text "\x7d" .rightBrace (by decide) rfl]
    at hloose
  exact h.loosen hloose

/-- The clauses of a switch, which its jumps can leave. -/
theorem switchClauses_read (hformed : ∀ t ∈ clauses, Formed x.dialect (.clause s₀.ctx.inSwitch) t)
    (hone : (clauses.filter (·.tag == .kwDefault)).length ≤ 1)
    (hall : ∀ t ∈ clauses, ClauseYields x s₀.ctx.inSwitch t) {f : List Tree → Reading β}
    (hn : (x.words b false (clausesAt x.o clauses
      ++ ((trailingComments x.o data ++ [.outdent, .newline]) ++ .token "\x7d" :: more))).length < n)
    (hs : Fed x s₀.settle (x.words b false (clausesAt x.o clauses
      ++ ((trailingComments x.o data ++ [.outdent, .newline]) ++ .token "\x7d" :: more))) s)
    (hf : ∀ clauses' s', List.Forall₂ x.Reclauses clauses clauses' →
      Fed x s₀.settle (⟨⟨.rightBrace, none, none⟩, x.lead true data.trailing⟩
        :: x.words false false more) s' → Ensures True (f clauses') s' Q) :
    Ensures True (withTarget id false [] (nested n).clauses >>= f) s Q := by
  have hbehind : Resumes x.dialect ClauseEnd
      ((trailingComments x.o data ++ [.outdent, .newline]) ++ .token "\x7d" :: more) :=
    .behind (holds_blockEnd x data).mute (resumes_brace _ (clauseEnd_tag (.inr (.inr rfl))))
  rw [clausesAt_inOrder] at hn hs
  refine withTarget_reads (P := List.Forall₂ x.Reclauses clauses) (fun s₁ hs₁ hfed => ?_) hs
    fun clauses' s₁ hclauses hs₁ => hf clauses' s₁ hclauses hs₁.switchEnd
  have hctx : s₁.ctx = s₀.ctx.inSwitch := by
    rw [hs₁]
    exact ctx_switch hs.kept id
  have hpending : s₁.pendingLabels = [] := by
    rw [hs₁]
    exact hs.kept.pendingLabels
  have hread : Collects x s₁ n (nested n).clauseTurn _ (List.Forall₂ x.Reclauses []) _ _ :=
    clauses_read hformed (by simpa using hone) hall hctx hpending hbehind
      (fun s hs => hs.switchEnd.tag_eq (by simp)) b true
  exact hread.repeatTurns hn .nil hfed

theorem switchStatement_yields (h : data.Closed { tag := .kwSwitch })
    (hsign : IsSign x.dialect .kwSwitch none) (hvalue : Formed x.dialect .expr value)
    (hformed : ∀ t ∈ clauses, Formed x.dialect (.clause ctx.inSwitch) t)
    (hone : (clauses.filter (·.tag == .kwDefault)).length ≤ 1) (ih : ExprYields x value)
    (hall : ∀ t ∈ clauses, ClauseYields x ctx.inSwitch t) :
    StatementYields x ctx top (.node id data (value :: clauses)) := by
  have htag : data.tag = .kwSwitch := congrArg Core.tag h.core
  refine .of_bare (.switch h hsign hvalue hformed hone) (by change data.tag ≠ _; simp [htag])
    fun {s₀ b more n s} hctx hmore hn hs => ensures_get ?_
  subst hctx
  have hsteps : bareSteps x.o (.node id data (value :: clauses)) ++ more
      = headerAt x.o "switch" value [] ++ .space :: .token "\x7b" :: .indent :: (clausesAt x.o clauses
        ++ ((trailingComments x.o data ++ [.outdent, .newline]) ++ .token "\x7d" :: more)) := by
    rw [bareSteps_switch h.core]
    simp [headerAt]
  have hbrace : x.words false false (.space :: .token "\x7b" :: .indent :: (clausesAt x.o clauses
      ++ ((trailingComments x.o data ++ [.outdent, .newline]) ++ .token "\x7d" :: more)))
      = ⟨⟨.leftBrace, none, none⟩, false⟩ :: x.words false false (clausesAt x.o clauses
        ++ ((trailingComments x.o data ++ [.outdent, .newline]) ++ .token "\x7d" :: more)) :=
    x.words_text "\x7b" .leftBrace (by decide) rfl _
  rw [hsteps, words_header x b "switch" .kwSwitch hsign rfl, List.nil_append,
    x.words_text "(" .leftParen (by decide) rfl] at hn hs
  have hcurrent : s.current.tag = .kwSwitch := hs.tag_eq (by simp)
  simp only [hcurrent]
  refine hs.advance (by simp) fun s₁ hs₁ => hs₁.freshId fun id' s₂ _ _ _ hs₂ => ?_
  refine hs₂.expect rfl (by decide) fun s₃ hs₃ => ?_
  have hread : Takes x s₀.settle n ((nested n).expression false) _ _ _ :=
    ih.enclosed ")" .rightParen (by decide) false (.space :: .token "\x7b" :: .indent
      :: (clausesAt x.o clauses
        ++ ((trailingComments x.o data ++ [.outdent, .newline]) ++ .token "\x7d" :: more))) n
  have hlt := hread.shorter
  rw [hbrace] at hlt
  simp only [List.length_cons] at hn hlt
  refine hread.bind (by omega) hs₃ fun value' s₄ hvalue' hs₄ => ?_
  rw [hbrace] at hs₄
  refine hs₄.expect rfl (by decide) fun s₅ hs₅ => hs₅.expect rfl (by decide) fun s₆ hs₆ => ?_
  refine switchClauses_read hformed hone hall (by omega) hs₆ fun clauses' s₇ hclauses hs₇ => ?_
  refine hs₇.takeComments fun s₈ hs₈ => hs₈.expect rfl (by decide) fun s₉ hs₉ => ?_
  have hplain := Node.plain_switchNode s.current.line clauses'
  obtain ⟨data', hnode, hcore, hleading, htrailing⟩ := withComments_trailing
    (x.recalled data.trailing) id' (switchNode s.current.line clauses') (value' :: clauses')
    hplain.trailing
  rw [Tape.lead, x.hears_noted, hnode]
  refine ensures_withJumps fun data'' hdata => ⟨?_, hs₉.loosen (x.loosens_breaks false false more)⟩
  rw [← hdata.core, hplain.core] at hcore
  rw [← hdata.leading, hplain.leading] at hleading
  rw [← hdata.trailing] at htrailing
  exact restates_switch h hcore hleading htrailing hvalue' hclauses id'

end
end ScriptPress.Grammar
