import ScriptPress.Proofs.Rereading.Clause

/-! # Reading exceptions again

A try is its block with catches behind it, each with a name and perhaps a guard, and perhaps a block
that ends it in any case.
-/
namespace ScriptPress.Grammar
open Lexer Render

section
variable {x : Tape} {o : RenderOptions} {s₀ s : State} {t nameTree body : Tree}
  {catches finals : List Tree} {guard? : Option Tree} {name : String} {id : NodeId}
  {data data' : Node} {ctx : Ctx} {top b : Bool} {n : Nat} {more : List WriterStep}

/-! ## Catches -/

/-- What is written of the guard of a catch. -/
def guardAt (o : RenderOptions) : Option Tree → List WriterStep
  | some guard => .token "if" :: exprAt o guard { use := .operand Precedence.comma }
  | none => []

theorem statementAt_caught {ok : String → Prop} (h : data.core = { tag := .kwCatch })
    (hname : IsNamed ok name nameTree) :
    statementAt o (.node id data (nameTree :: (guard?.toList ++ [body]))) .tryClause
      = .token "catch" :: .space :: .token "(" :: .token name
        :: (guardAt o guard? ++ .token ")" :: .space :: statementAt o body .block) := by
  cases guard? with
  | some guard =>
    rw [Option.toList_some, List.singleton_append, statementAt_guarded h hname]
    simp [headed, guardAt]
  | none =>
    rw [Option.toList_none, List.nil_append, statementAt_catch h hname]
    simp [headed, guardAt]

theorem guardAt_same {guard'? : Option Tree} (ho : x.Suffices o)
    (h : Option.Rel x.Redraws guard? guard'?) : SameRun (guardAt o guard'?) (guardAt o guard?) := by
  cases h with
  | some h => exact .cons _ (h.drawn o ho _)
  | none => exact .refl _

theorem catchGuard_reads (hguards : ∀ guard ∈ guard?, x.dialect.hasCatchGuards = true)
    (ih : ∀ guard ∈ guard?, ExprYields x guard)
    (hn : (x.words false false (guardAt x.o guard? ++ .token ")" :: more)).length ≤ n)
    (hs : Fed x s₀ (x.words false false (guardAt x.o guard? ++ .token ")" :: more)) s) :
    Ensures True (nested n).catchGuard s fun guard s' =>
      (∃ guard'?, guard = guard'?.toList ∧ Option.Rel x.Redraws guard? guard'?)
        ∧ Fed x s₀ (⟨⟨.rightParen, none, none⟩, false⟩ :: x.words false false more) s' := by
  cases guard? with
  | some guard =>
    have hsteps : guardAt x.o (some guard) ++ .token ")" :: more = .token "if"
        :: (exprAt x.o guard { use := .operand Precedence.comma } ++ .token ")" :: more) := rfl
    rw [hsteps, x.words_text "if" .kwIf (by decide) rfl] at hn hs
    have hcurrent : s.current.tag = .kwIf := hs.tag_eq (by simp)
    refine ensures_ifCheck (fun _ => ensures_get ?_) fun hno => absurd hcurrent hno
    rw [if_pos (by rw [hs.dialect]; exact hguards guard rfl)]
    refine hs.advance (by simp) fun s₁ hs₁ => ?_
    refine ((ih guard rfl).enclosed ")" .rightParen (by decide) false more n).bind hn hs₁
      fun guard' s₂ hguard' hs₂ => ?_
    exact ensures_pure ⟨⟨some guard', rfl, .some hguard'⟩, hs₂⟩
  | none =>
    have hsteps : guardAt x.o none ++ .token ")" :: more = .token ")" :: more := rfl
    rw [hsteps, x.words_text ")" .rightParen (by decide) rfl] at hs
    have hcurrent : s.current.tag = .rightParen := hs.tag_eq (by simp)
    refine ensures_ifCheck (fun hif => ?_) fun _ => ensures_pure ⟨⟨none, rfl, .none⟩, hs⟩
    rw [hcurrent] at hif
    cases hif

theorem replays_catch {ok : String → Prop} {body' : Tree} {guard'? : Option Tree}
    (h : data.Plain { tag := .kwCatch }) (h' : data'.Plain { tag := .kwCatch })
    (hname : IsNamed ok name nameTree) {nameId : NodeId} {line : Nat}
    (hguard : Option.Rel x.Redraws guard? guard'?) (hbody : x.Replays .block body body')
    (id' : NodeId) : x.Replays .tryClause (.node id data (nameTree :: (guard?.toList ++ [body])))
      (.node id' data' (.node nameId (.identifier name line) [] :: (guard'?.toList ++ [body']))) := by
  have hnamed : IsNamed (fun _ => True) name (.node nameId (.identifier name line) []) :=
    ⟨Node.plain_identifier name line, trivial⟩
  refine ⟨regains_node h h' (by simp) (.cons (regains_named hname)
    (List.rel_append (regains_options hguard) (.cons hbody.toRegains .nil))), fun o ho => ?_⟩
  rw [statementAt_caught h.core hname, statementAt_caught h'.core hnamed]
  exact .cons _ (.cons _ (.cons _ (.cons _ ((guardAt_same ho hguard).append
    (.cons _ (.cons _ (hbody.drawn o ho)))))))

/-- A clause of a try is read again by the reader of its sort. -/
structure HandlerYields (x : Tape) (ctx : Ctx) (tag : Tag) (t : Tree) : Prop where
  caught : tag = .kwCatch → ∀ {s₀ : State} {b : Bool} {more}, s₀.ctx = ctx →
    s₀.pendingLabels = [] → Yields x s₀ (·.catchClause)
      (x.words b false (statementAt x.o t .tryClause ++ more)) (x.Replays .tryClause t)
      (x.words true false more)
  final : tag = .kwFinally → ∀ {s₀ : State} {b : Bool} {more}, s₀.ctx = ctx →
    s₀.pendingLabels = [] → Yields x s₀ (·.finallyPart)
      (x.words b false (statementAt x.o t .tryClause ++ more))
      (List.Forall₂ (x.Replays .tryClause) [t]) (x.words true false more)

theorem handler_yields (hdata : data.Plain { tag := .kwCatch })
    (hsign : IsSign x.dialect .kwCatch none)
    (hguards : ∀ guard ∈ guard?, x.dialect.hasCatchGuards = true)
    (hname : IsNamed (IsName x.dialect) name nameTree)
    (ih : ∀ guard ∈ guard?, ExprYields x guard) (ih' : BlockYields x ctx false body) :
    HandlerYields x ctx .kwCatch (.node id data (nameTree :: (guard?.toList ++ [body]))) := by
  refine ⟨fun _ s₀ b more hctx hpending => ?_, nofun⟩
  have hlexeme : IsName x.dialect name := by
    obtain ⟨-, hlexeme⟩ := hname
    exact hlexeme
  have hopens : Opens x.dialect (·.tag = .kwCatch)
      (statementAt x.o (.node id data (nameTree :: (guard?.toList ++ [body]))) .tryClause) := by
    rw [statementAt_caught hdata.core hname]
    exact opens_sign .kwCatch hsign rfl
  refine ⟨x.shorter hopens b true more, fun n s hn hs => ?_⟩
  have hsteps : statementAt x.o (.node id data (nameTree :: (guard?.toList ++ [body]))) .tryClause
      ++ more = .token "catch" :: .space :: .token "(" :: .token name :: (guardAt x.o guard?
        ++ .token ")" :: .space :: (statementAt x.o body .block ++ more)) := by
    rw [statementAt_caught hdata.core hname]
    simp
  rw [hsteps, x.words_spelled "catch" hsign rfl, x.words_space,
    x.words_text "(" .leftParen (by decide) rfl, x.words_lexeme hlexeme] at hn hs
  refine hs.advance (by simp) fun s₁ hs₁ => hs₁.expect rfl (by decide) fun s₂ hs₂ => ?_
  refine hs₂.declaredName fun line s₃ hs₃ => hs₃.makeNode fun nameId s₄ _ hs₄ => ?_
  have hle := x.length_words_behind false false (guardAt x.o guard?)
    (.token ")" :: .space :: (statementAt x.o body .block ++ more))
  rw [x.words_text ")" .rightParen (by decide) rfl] at hle
  simp only [List.length_cons] at hn hle
  refine (catchGuard_reads hguards ih (by omega) hs₄).bind fun guard s₅ hread => ?_
  obtain ⟨⟨guard'?, rfl, hguard⟩, hs₅⟩ := hread
  refine hs₅.expect rfl (by decide) fun s₆ hs₆ => ?_
  rw [x.words_space] at hle hs₆
  refine ((ih'.block hctx hpending "catch").ensures n s₆ (by omega) hs₆).bind fun body' s₇ hbody => ?_
  obtain ⟨hbody', hs₇⟩ := hbody
  refine hs₇.makeNode_last fun id' s₈ hs₈ => ⟨?_, hs₈.loosen (x.loosens_breaks false false more)⟩
  exact replays_catch hdata (Node.plain_leaf .kwCatch s.current.line) hname hguard hbody' id'

theorem catch_yields (hdata : data.Plain { tag := .kwCatch })
    (hsign : IsSign x.dialect .kwCatch none) (hname : IsNamed (IsName x.dialect) name nameTree)
    (ih : BlockYields x ctx false body) :
    HandlerYields x ctx .kwCatch (.node id data [nameTree, body]) := by
  have hnone : ∀ guard ∈ (none : Option Tree), ExprYields x guard := nofun
  exact handler_yields hdata hsign (by simp) hname hnone ih

theorem guarded_yields {guard : Tree} (hdata : data.Plain { tag := .kwCatch })
    (hsign : IsSign x.dialect .kwCatch none) (hguards : x.dialect.hasCatchGuards = true)
    (hname : IsNamed (IsName x.dialect) name nameTree) (ih : ExprYields x guard)
    (ih' : BlockYields x ctx false body) :
    HandlerYields x ctx .kwCatch (.node id data [nameTree, guard, body]) := by
  have hguard : ∀ t ∈ some guard, ExprYields x t := by
    rintro t ⟨rfl⟩
    exact ih
  exact handler_yields hdata hsign (fun _ _ => hguards) hname hguard ih'

theorem finally_yields (hdata : data.Plain { tag := .kwFinally })
    (hsign : IsSign x.dialect .kwFinally none) (ih : BlockYields x ctx false body) :
    HandlerYields x ctx .kwFinally (.node id data [body]) := by
  refine ⟨nofun, fun _ s₀ b more hctx hpending => ?_⟩
  have hread : Yields x s₀ (·.block "finally") (x.words false false
      (statementAt x.o body .block ++ more)) _ _ := ih.block hctx hpending "finally"
  have hsteps : x.words b false (statementAt x.o (.node id data [body]) .tryClause ++ more)
      = ⟨⟨.kwFinally, none, none⟩, b⟩
        :: x.words false false (statementAt x.o body .block ++ more) := by
    rw [statementAt_finally hdata.core, List.cons_append, List.cons_append,
      x.words_spelled "finally" hsign rfl, x.words_space]
  rw [hsteps]
  have hlength := (x.loosens_breaks false false more).length
  refine ⟨?_, fun n s hn hs => ?_⟩
  · have hlt := hread.shorter
    rw [List.length_cons, ← hlength]
    omega
  have hcurrent : s.current.tag = .kwFinally := hs.tag_eq (by simp)
  refine ensures_ifCheck (fun _ => ?_) fun hno => absurd hcurrent hno
  refine hs.advance (by simp) fun s₁ hs₁ => ?_
  refine (hread.ensures n s₁ (Nat.le_of_succ_le hn) hs₁).bind fun body' s₂ hbody => ?_
  obtain ⟨hbody', hs₂⟩ := hbody
  refine hs₂.makeNode fun id' s₃ _ hs₃ => ensures_pure ⟨.cons ?_ .nil, ?_⟩
  · have hplain := Node.plain_leaf .kwFinally s.current.line
    refine ⟨regains_node hdata hplain (by simp) (.cons hbody'.toRegains .nil), fun o ho => ?_⟩
    rw [statementAt_finally hdata.core, statementAt_finally hplain.core]
    exact .cons _ (.cons _ (hbody'.drawn o ho))
  · exact hs₃.loosen (x.loosens_breaks false false more)

/-! ## Tries -/

/-- The clauses of a try as they are written. -/
def handlersAt (o : RenderOptions) (ts : List Tree) : List WriterStep :=
  ts.flatMap fun t => .space :: statementAt o t .tryClause

theorem handlersAt_same {ts ts' : List Tree} (ho : x.Suffices o)
    (h : List.Forall₂ (x.Replays .tryClause) ts ts') :
    SameRun (handlersAt o ts') (handlersAt o ts) := by
  have hsame : SameRun (inOrder (fun _ t => .space :: statementAt o t .tryClause) false ts')
      (inOrder (fun _ t => .space :: statementAt o t .tryClause) false ts) :=
    inOrder_same h.flip fun _ _ ht _ => .cons _ (ht.drawn o ho)
  rwa [inOrder_false, inOrder_false] at hsame

/-- Behind the clauses of a sort stands none of that sort. -/
theorem resumes_handlers {P : Sym → Prop} {tag : Tag} {ts : List Tree}
    (hformed : ∀ t ∈ ts, Formed x.dialect (.handler ctx tag) t) (hP : ∀ s : Sym, s.tag = tag → P s)
    (hmore : Resumes x.dialect P more) : Resumes x.dialect P (handlersAt x.o ts ++ more) := by
  cases ts with
  | nil => exact hmore
  | cons t ts =>
    rw [handlersAt, List.flatMap_cons, List.append_assoc]
    exact .of_opens (.skip rfl ((hformed t (by simp)).opens_handler.mono hP)) _

theorem catches_read (hformed : ∀ t ∈ catches, Formed x.dialect (.handler ctx .kwCatch) t)
    (hall : ∀ t ∈ catches, HandlerYields x ctx .kwCatch t) (hctx : s₀.ctx = ctx)
    (hpending : s₀.pendingLabels = [])
    (hmore : Resumes x.dialect (fun s => s.tag ≠ .kwCatch) more)
    (hn : (x.words true false (handlersAt x.o catches ++ more)).length < n)
    (hs : Fed x s₀ (x.words true false (handlersAt x.o catches ++ more)) s) :
    Ensures True ((nested n).itemsUntil (·.tag != .kwCatch) (nested n).catchClause []) s
      fun catches' s' => List.Forall₂ (x.Replays .tryClause) catches catches'
        ∧ Fed x s₀ (x.words true false more) s' := by
  have hread : Collects x s₀ n (untilTurn (·.tag != .kwCatch) (nested n).catchClause)
      (x.words true false (handlersAt x.o catches ++ more))
      (List.Forall₂ (x.Replays .tryClause) [])
      (List.Forall₂ (x.Replays .tryClause) ([] ++ catches)) (x.words true false more) := by
    refine collects_until (· != .kwCatch) (P := fun _ => True) forall₂_snoc ?_ ?_
      (hmore.mono fun _ _ => trivial) (fun _ => rfl) (fun h => by cases h) ?_
    · intro t ht zs _
      rw [List.cons_append, x.words_space]
      exact ((hall t ht).caught rfl hctx hpending).takes n
    · intro t ht
      exact .skip rfl ((hformed t ht).opens_handler.mono fun s hs => ⟨trivial, by simp [hs]⟩)
    · intro s hs
      have hno : s.current.tag ≠ .kwCatch := hs.head_ne hmore.head (by decide)
      simpa using hno
  exact hread.repeatTurns hn .nil hs

theorem finallyPart_reads (hformed : ∀ t ∈ finals, Formed x.dialect (.handler ctx .kwFinally) t)
    (hall : ∀ t ∈ finals, HandlerYields x ctx .kwFinally t) (hone : finals.length ≤ 1)
    (hctx : s₀.ctx = ctx) (hpending : s₀.pendingLabels = [])
    (hmore : Resumes x.dialect (fun s => s.tag ≠ .kwFinally) more)
    (hn : (x.words true false (handlersAt x.o finals ++ more)).length ≤ n)
    (hs : Fed x s₀ (x.words true false (handlersAt x.o finals ++ more)) s) :
    Ensures True (nested n).finallyPart s fun finals' s' =>
      List.Forall₂ (x.Replays .tryClause) finals finals' ∧ Fed x s₀ (x.words true false more) s' := by
  match finals with
  | [] =>
    have hno : s.current.tag ≠ .kwFinally := hs.head_ne hmore.head (by decide)
    exact ensures_ifCheck (fun h => absurd h hno) fun _ => ensures_pure ⟨.nil, hs⟩
  | [t] =>
    have hsteps : x.words true false (handlersAt x.o [t] ++ more)
        = x.words true false (statementAt x.o t .tryClause ++ more) := by
      rw [handlersAt, List.flatMap_cons, List.flatMap_nil, List.append_nil, List.cons_append,
        x.words_space]
    rw [hsteps] at hn hs
    exact ((hall t (by simp)).final rfl hctx hpending).ensures n s hn hs

theorem tryStatement_yields (h : data.Remarked { tag := .kwTry })
    (hsign : IsSign x.dialect .kwTry none) (hbody : Formed x.dialect (.block ctx.settled false) body)
    (hcatches : ∀ t ∈ catches, Formed x.dialect (.handler ctx.settled .kwCatch) t)
    (hfinals : ∀ t ∈ finals, Formed x.dialect (.handler ctx.settled .kwFinally) t)
    (hone : finals.length ≤ 1) (hne : catches ++ finals ≠ [])
    (ih : BlockYields x ctx.settled false body)
    (ih' : ∀ t ∈ catches, HandlerYields x ctx.settled .kwCatch t)
    (ih'' : ∀ t ∈ finals, HandlerYields x ctx.settled .kwFinally t) :
    StatementYields x ctx top (.node id data (body :: (catches ++ finals))) := by
  have htag : data.tag = .kwTry := congrArg Core.tag h.core
  refine .of_bare (.try h hsign hbody hcatches hfinals hone hne) (by change data.tag ≠ _; simp [htag])
    fun {s₀ b more n s} hctx hmore hn hs => ensures_get ?_
  have hsteps : ∀ o ts more, bareSteps o (.node id data (body :: ts)) ++ more
      = .token "try" :: .space :: (statementAt o body .block ++ (handlersAt o ts ++ more)) := by
    intro o ts more
    rw [bareSteps_try h.core]
    simp [handlersAt]
  have hhandlers : handlersAt x.o (catches ++ finals) ++ more
      = handlersAt x.o catches ++ (handlersAt x.o finals ++ more) := by
    simp [handlersAt]
  rw [hsteps, hhandlers, x.words_spelled "try" hsign rfl, x.words_space] at hn hs
  have hcurrent : s.current.tag = .kwTry := hs.tag_eq (by simp)
  simp only [hcurrent]
  refine hs.advance (by simp) fun s₁ hs₁ => ?_
  have hsettled : s₀.settle.ctx = ctx.settled := by rw [ctx_settle, hctx]
  have hblock : Yields x s₀.settle (·.block "try") (x.words false false (statementAt x.o body .block
      ++ (handlersAt x.o catches ++ (handlersAt x.o finals ++ more)))) _ _ :=
    ih.block hsettled rfl "try"
  have hlt := hblock.shorter
  simp only [List.length_cons] at hn
  refine (hblock.ensures n s₁ (by omega) hs₁).bind fun body' s₂ hread => ?_
  obtain ⟨hbody', hs₂⟩ := hread
  have hloose : Loosens _ (x.words true false
      (handlersAt x.o catches ++ (handlersAt x.o finals ++ more))) :=
    x.loosens_breaks false false _
  have hbetween : Resumes x.dialect (fun s => s.tag ≠ .kwCatch) (handlersAt x.o finals ++ more) :=
    resumes_handlers hfinals (fun s hs => by simp [hs]) (hmore.mono fun _ h => h.handler.1)
  have hle := x.length_words_behind true true (handlersAt x.o catches)
    (handlersAt x.o finals ++ more)
  rw [hloose.length] at hlt
  refine (catches_read hcatches ih' hsettled rfl hbetween (by omega) (hs₂.loosen hloose)).bind
    fun catches' s₃ hread => ?_
  obtain ⟨hcatches', hs₃⟩ := hread
  refine (finallyPart_reads hfinals ih'' hone hsettled rfl (hmore.mono fun _ h => h.handler.2)
    (by omega) hs₃).bind fun finals' s₄ hread => ?_
  obtain ⟨hfinals', hs₄⟩ := hread
  have hall : List.Forall₂ (x.Replays .tryClause) (catches ++ finals) (catches' ++ finals') :=
    List.rel_append hcatches' hfinals'
  have hsome : catches' ++ finals' ≠ [] := fun hnone =>
    hne (List.eq_nil_of_length_eq_zero (by rw [hall.length_eq, hnone]; rfl))
  rw [if_neg (by simpa [List.isEmpty_iff] using hsome)]
  refine hs₄.makeNode_last fun id' s₅ hs₅ => ⟨?_, hs₅⟩
  have hplain := Node.plain_leaf .kwTry s.current.line
  refine restates_node h hplain (by simp) (.cons hbody'.toRegains (regains_replays hall))
    fun o ho => ?_
  rw [bareSteps_try h.core, List.cons_append, bareSteps_try hplain.core]
  exact .cons _ (.cons _ ((hbody'.drawn o ho).append (handlersAt_same ho hall)))

end
end ScriptPress.Grammar
