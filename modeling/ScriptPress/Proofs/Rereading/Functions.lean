import ScriptPress.Proofs.Rereading.Blocks
import ScriptPress.Proofs.Rereading.Operation

/-! # Reading functions again

A function is read again from its name, its parameters and its body. The body is read in a scope of
its own; behind it the reading goes on in the surroundings of the function.
-/
namespace ScriptPress.Grammar
open Lexer Render

section
variable {β : Type} {x : Tape} {s₀ s : State} {f : FunctionData} {role : FunctionRole}
  {body : Tree} {id : NodeId} {data : Node} {b : Bool} {ws rest : List Word}
  {more : List WriterStep}

/-! ## Names -/

/-- The word of a name. -/
def nameSym (name : String) : Sym := ⟨.identifier, none, some name⟩

theorem Fed.declaredName {what : Expected} {name : String} {Q : β → State → Prop}
    {f : String × Nat → Reading β} (h : Fed x s₀ (⟨nameSym name, b⟩ :: ws) s)
    (hf : ∀ line s', Fed x s₀ ws s' → Ensures True (f (name, line)) s' Q) :
    Ensures True (Grammar.declaredName what >>= f) s Q := by
  have hsym : s.current.sym = nameSym name := h.sym (by simp [nameSym])
  have hcurrent : s.current.tag = .identifier := congrArg Sym.tag hsym
  refine Ensures.bind (P := fun named s' => named.1 = name ∧ Fed x s₀ ws s') ?_
    fun ⟨name', line⟩ s' ⟨hname, hs'⟩ => ?_
  case refine_2 =>
    obtain rfl : name' = name := hname
    exact hf line s' hs'
  refine ensures_get ?_
  simp only [hcurrent]
  refine h.advance (by simp [nameSym]) fun s₁ hs₁ => hs₁.warnOfKeyword fun s₂ hs₂ => ?_
  exact ensures_pure ⟨shown_eq hsym, hs₂⟩

/-- The name of a function, before its parenthesis. -/
theorem functionName_reads {name? : Option String} {mid : List WriterStep}
    (hname : ∀ name ∈ name?, IsName x.dialect name) (hnamed : role = .expression ∨ name? ≠ none)
    {f : Option String → Reading β} {Q : β → State → Prop}
    (hs : Fed x s₀ (x.words false false (name?.elim .space .token :: .token "(" :: mid)) s)
    (hf : ∀ s', Fed x s₀ (x.words false false (.token "(" :: mid)) s' →
      Ensures True (f name?) s' Q) : Ensures True (functionName role >>= f) s Q := by
  refine Ensures.bind (P := fun r s' => r = name?
    ∧ Fed x s₀ (x.words false false (.token "(" :: mid)) s') ?_ fun r s' ⟨hr, hs'⟩ => hr ▸ hf s' hs'
  refine ensures_get ?_
  cases name? with
  | none =>
    have hrole : role = .expression := hnamed.resolve_right (by simp)
    change Fed x s₀ (x.words false false (.space :: .token "(" :: mid)) s at hs
    rw [x.words_space] at hs
    have htag : s.current.tag = .leftParen := by
      have hfaces := hs
      rw [x.words_text "(" .leftParen (by decide) rfl] at hfaces
      exact hfaces.tag_eq (by simp)
    simp only [htag]
    rw [if_neg (by decide), if_pos (by rw [hrole]; rfl)]
    exact ensures_pure ⟨rfl, hs⟩
  | some name =>
    change Fed x s₀ (x.words false false (.token name :: .token "(" :: mid)) s at hs
    rw [x.words_lexeme (hname name rfl)] at hs
    have htag : s.current.tag = .identifier := hs.tag_eq (by simp)
    rw [if_pos (by simp [htag])]
    exact hs.declaredName fun line s₁ hs₁ => ensures_pure ⟨rfl, hs₁⟩

theorem parameter_takes {name : String} (hname : IsName x.dialect name) (n : Nat)
    (zs : List WriterStep) : Takes x s₀ n
      (do return (← declaredName .formalParameter).1 : Reading String)
      (x.words false false ([.token name] ++ zs)) (Eq name) (x.words false false zs) := by
  rw [List.singleton_append, x.words_lexeme hname]
  refine ⟨Nat.lt_succ_self _, fun s _ hs => ?_⟩
  exact hs.declaredName fun line s₁ hs₁ => ensures_pure ⟨rfl, hs₁⟩

/-- Parameters between their parentheses. -/
theorem parameters_read {params : List String} (hparams : ∀ name ∈ params, IsName x.dialect name)
    {n : Nat} {f : List String → Reading β} {Q : β → State → Prop}
    (hn : (x.words false false (separated (params.map fun p => [.token p])
      ++ .token ")" :: more)).length < n)
    (hs : Fed x s₀ (x.words false false (separated (params.map fun p => [.token p])
      ++ .token ")" :: more)) s)
    (hf : ∀ s', Fed x s₀ (x.words false false (.token ")" :: more)) s' →
      Ensures True (f params) s' Q) : Ensures True ((nested n).parameters >>= f) s Q := by
  have hclose : x.words false false (.token ")" :: more)
      = ⟨⟨.rightParen, none, none⟩, false⟩ :: x.words false false more :=
    x.words_text ")" .rightParen (by decide) rfl more
  refine Ensures.bind (P := fun names s' => names = params
    ∧ Fed x s₀ (x.words false false (.token ")" :: more)) s') ?_
    fun names s' ⟨hnames, hs'⟩ => hnames ▸ hf s' hs'
  cases params with
  | nil =>
    change Fed x s₀ (x.words false false (.token ")" :: more)) s at hs
    refine ensures_ifCheck (fun _ => ensures_pure ⟨rfl, hs⟩) fun hne => absurd ?_ hne
    rw [hclose] at hs
    exact hs.tag_eq (by simp)
  | cons p params =>
    have hhead : ∃ zs, separated ((p :: params).map fun p => [WriterStep.token p])
        ++ .token ")" :: more = .token p :: zs := by
      cases params with
      | nil => exact ⟨_, rfl⟩
      | cons q params => exact ⟨_, rfl⟩
    have hne : s.current.tag ≠ .rightParen := by
      obtain ⟨zs, hzs⟩ := hhead
      have hfaces := hs
      rw [hzs, x.words_lexeme (hparams p (by simp))] at hfaces
      exact hfaces.tag_ne (by simp) (by simp)
    refine ensures_ifCheck (fun heq => absurd heq hne) fun _ => ?_
    have hitems : Collects x s₀ n (separatedTurn
          (do return (← declaredName .formalParameter).1 : Reading String))
        (x.words false false (separated ((p :: params).map fun p => [.token p])
          ++ .token ")" :: more)) (List.Forall₂ Eq [])
        (List.Forall₂ Eq ([] ++ p :: params)) (x.words false false (.token ")" :: more)) := by
      refine collects_separated (by simp) (fun q hq zs _ => parameter_takes (hparams q hq) n zs) ?_
      rw [hclose]
      rintro w ⟨rfl⟩
      simp
    refine (hitems.repeatTurns hn .nil hs).mono fun names s' hread => ?_
    rw [List.nil_append, List.forall₂_eq_eq_eq] at hread
    exact ⟨hread.1.symm, hread.2⟩

/-! ## Bodies -/

/-- What is read in a scope of its own leaves the surroundings as they were. -/
theorem inFunction_reads {α : Type} {m : Reading α} {P : α → Prop} {n : Nat}
    (hm : ∀ s₁ : State, s₁.ctx = .body → s₁.pendingLabels = [] → Takes x s₁ n m ws P rest)
    (hn : ws.length < n) (hs : Fed x s₀ ws s) (id : NodeId) :
    Ensures True (inFunction id m) s fun result s' => P result.1 ∧ Fed x s₀ rest s' := by
  refine ensures_get (ensures_set ?_)
  refine (hm _ ?_ ?_).bind hn (hs.rebase ?_ rfl rfl rfl) fun a s₁ ha hs₁ => ?_
  · rfl
  · rfl
  · simp
  refine ensures_get (ensures_modify (ensures_pure ⟨ha, ?_⟩))
  refine hs.restore hs₁ (Nat.le_refl _) rfl rfl rfl rfl ?_
  have hdialect : s₁.lexer.dialect = s.lexer.dialect := hs₁.kept.dialect
  rw [← hs.kept.frame]
  simp only [State.frame, hdialect]

/-- A function that was read again: what its body needs shows in its flags. -/
structure Tape.Refunctions (x : Tape) (f : FunctionData) (body : Tree) (f' : FunctionData)
    (body' : Tree) : Prop where
  bare : Payload.bare (.function f') = Payload.bare (.function f)
  body : x.Replays .block body body'

theorem functionOf_yields (hf : IsFunction x.dialect f role body)
    (hbody : BlockYields x .body true body) (s₀ : State) (b : Bool) (more : List WriterStep) :
    Yields x s₀ (·.functionOf role)
      (x.words b false (functionAt x.o f body ++ more))
      (fun t' => ∃ id' data' f' body', t' = .node id' data' [body']
        ∧ data'.Plain { tag := .kwFunction, payload := .function f' }
        ∧ x.Refunctions f body f' body') (x.words false false more) := by
  have hsteps : functionAt x.o f body ++ more = .token "function" :: f.name.elim .space .token
      :: .token "(" :: (separated (f.params.map fun p => [.token p])
        ++ .token ")" :: .space :: (statementAt x.o body .block ++ more)) := by
    simp [functionAt]
  have hopens : Opens x.dialect (fun _ => True) (functionAt x.o f body) :=
    opens_sign .kwFunction (isSign_everywhere (by decide)) trivial
  have hopen : ∀ mid, x.words false false (.token "(" :: mid)
      = ⟨⟨.leftParen, none, none⟩, false⟩ :: x.words false false mid := fun mid =>
    x.words_text "(" .leftParen (by decide) rfl mid
  have hclose : ∀ mid, x.words false false (.token ")" :: .space :: mid)
      = ⟨⟨.rightParen, none, none⟩, false⟩ :: x.words false false mid := fun mid => by
    rw [x.words_text ")" .rightParen (by decide) rfl, x.words_space]
  obtain ⟨ws, hbrace, hread⟩ := hbody false more
  refine ⟨x.shorter hopens b false more, fun n s hn hs => ?_⟩
  rw [hsteps, x.words_text "function" .kwFunction (by decide) rfl] at hn hs
  refine hs.advance (by simp) fun s₁ hs₁ => ?_
  refine functionName_reads hf.name hf.named hs₁ fun s₂ hs₂ => ?_
  rw [hopen] at hs₂
  refine hs₂.expect rfl (by decide) fun s₃ hs₃ => ?_
  have hparams : ∀ name ∈ f.params, _ := hf.params
  have hle := x.length_words_behind false false [f.name.elim .space .token, .token "("]
    (separated (f.params.map fun p => [.token p])
      ++ .token ")" :: .space :: (statementAt x.o body .block ++ more))
  refine parameters_read hparams (Nat.lt_of_lt_of_le (Nat.lt_succ_of_le hle) hn) hs₃
    fun s₄ hs₄ => ?_
  rw [hclose, hbrace] at hs₄
  refine hs₄.expect rfl (by decide) fun s₅ hs₅ => ?_
  refine hs₅.expect rfl (by decide) fun s₆ hs₆ => ?_
  refine hs₆.freshId fun id s₇ _ _ _ hs₇ => ensures_get ?_
  refine (inFunction_reads (fun s' hctx hpending => hread s' n s₅.current.line "function" hctx
    hpending) ?_ hs₇ id).bind fun result s₈ hresult => ensures_pure ?_
  · have hle' := x.length_words_behind false false
      (separated (f.params.map fun p => [.token p]) ++ [.token ")", .space])
      (statementAt x.o body .block ++ more)
    rw [hbrace, List.append_assoc] at hle'
    exact Nat.lt_of_lt_of_le (Nat.lt_of_lt_of_le hle' hle) (Nat.le_of_succ_le hn)
  obtain ⟨hbody', hs₈⟩ := hresult
  refine ⟨⟨id, _, _, result.1, rfl, Node.plain_functionNode _ _ _ _, ?_, hbody'⟩, hs₈⟩
  simp [Payload.bare, hf.hasRole]

/-! ## Functions as they are written -/

namespace Tape.Refunctions
variable {f' : FunctionData} {body' : Tree} {data' : Node} {id' : NodeId}

theorem echoes (h : x.Refunctions f body f' body')
    (hcore : data.core = { tag := .kwFunction, payload := .function f })
    (hcore' : data'.core = { tag := .kwFunction, payload := .function f' }) :
    x.Echoes (.node id data [body]) (.node id' data' [body']) := by
  refine echoes_core hcore ?_ (by simp) (.cons h.body.echo .nil)
  rw [hcore', core_echo (by simp), Core.bare, Core.bare, h.bare]

theorem drawn (h : x.Refunctions f body f' body') {o : RenderOptions} (ho : x.Suffices o) :
    SameRun (functionAt o f' body') (functionAt o f body) := by
  have hbare := h.bare
  simp only [Payload.bare, Payload.function.injEq, FunctionData.mk.injEq] at hbare
  obtain ⟨hname, -, hparams, -⟩ := hbare
  rw [functionAt, functionAt, hname, hparams]
  exact .append (.refl _) (.cons _ (.cons _ (h.body.drawn o ho)))

theorem redraws (h : x.Refunctions f body f' body')
    (hdata : data.Plain { tag := .kwFunction, payload := .function f })
    (hdata' : data'.Plain { tag := .kwFunction, payload := .function f' }) :
    x.Redraws (.node id data [body]) (.node id' data' [body']) := by
  refine redraws_bare ⟨h.echoes hdata.core hdata'.core, ?_⟩ fun o ho place => ?_
  · rw [remarks_plain hdata, remarks_plain hdata']
    exact remarksAll_regains (.cons h.body.toRegains .nil)
  · rw [bareAt_function hdata.core, bareAt_function hdata'.core]
    exact h.drawn ho

theorem restates (h : x.Refunctions f body f' body')
    (hdata : data.Remarked { tag := .kwFunction, payload := .function f })
    (hdata' : data'.Plain { tag := .kwFunction, payload := .function f' }) :
    x.Restates [] (.node id data [body]) (.node id' data' [body']) := by
  refine ⟨h.echoes hdata.core hdata'.core, hdata'.leading, ?_, fun o ho => ?_⟩
  · change Tree.remarksAll [body'] ++ data'.trailing
      = x.recalled (Tree.remarksAll [body] ++ data.trailing)
    rw [hdata.trailing, hdata'.trailing, List.append_nil, List.append_nil]
    exact remarksAll_regains (.cons h.body.toRegains .nil)
  · rw [bareSteps_function hdata.core, bareSteps_function hdata'.core]
    exact (h.drawn ho).behind _

end Tape.Refunctions

/-- A function that is an operand. -/
theorem function_yields (h : data.Plain { tag := .kwFunction, payload := .function f })
    (hf : IsFunction x.dialect f .expression body) (hbody : BlockYields x .body true body) :
    BareYields x (.node id data [body]) := by
  have htag : data.tag = .kwFunction := congrArg Core.tag h.core
  refine .of_member (precedence_tight htag (by decide)) fun {s₀ allowCall place b more} _ _ _ => ?_
  have hread := functionOf_yields hf hbody s₀ b more
  rw [bareAt_function h.core]
  refine ⟨hread.shorter, fun n s Q hn hs hQ => ensures_get ?_⟩
  have hcurrent : s.current.tag = .kwFunction := by
    have hfaces := hs
    rw [functionAt, List.cons_append, List.cons_append, List.cons_append, List.cons_append,
      x.words_text "function" .kwFunction (by decide) rfl] at hfaces
    exact hfaces.tag_eq (by simp)
  rw [if_neg (by simp [hcurrent]), if_pos (by simp [hcurrent])]
  refine (hread.ensures n s hn hs).bind fun t' s' ht' => ?_
  obtain ⟨⟨id', data', f', body', rfl, hdata', hagain⟩, hs'⟩ := ht'
  have hfuel := hread.shorter
  exact hQ _ s' _ (hagain.redraws h hdata') hs' (by rw [bound_nested]; omega)

theorem functionStatement_yields {ctx : Ctx} {top : Bool}
    (h : data.Remarked { tag := .kwFunction, payload := .function f })
    (hf : IsFunction x.dialect f (functionRole top) body) (hbody : BlockYields x .body true body) :
    StatementYields x ctx top (.node id data [body]) := by
  refine ⟨fun {s₀ b more} _ _ => ?_, fun hblock => ?_⟩
  · have hread := functionOf_yields hf hbody s₀.settle b (.newline :: more)
    have hread' := (hread.mono (Q := x.Restates [] (.node id data [body])) ?_).loosen_rest
      (x.loosens_breaks false false (.newline :: more))
    · have hsteps : bareSteps x.o (.node id data [body]) ++ more
          = functionAt x.o f body ++ .newline :: more := by
        rw [bareSteps_function h.core, List.append_assoc]
        rfl
      rw [hsteps]
      refine ⟨hread'.shorter, fun n s hn hs => ensures_get ?_⟩
      have hcurrent : s.current.tag = .kwFunction := by
        have hfaces := hs
        rw [functionAt, List.cons_append, List.cons_append, List.cons_append, List.cons_append,
          x.words_text "function" .kwFunction (by decide) rfl] at hfaces
        exact hfaces.tag_eq (by simp)
      simp only [hcurrent]
      exact hread'.ensures n s hn hs
    · rintro t' ⟨id', data', f', body', rfl, hdata', hagain⟩
      exact hagain.restates h hdata'
  · have htag : data.tag = .kwFunction := congrArg Core.tag h.core
    have hblock' : data.tag = .block := hblock
    rw [htag] at hblock'
    cases hblock'

end
end ScriptPress.Grammar
