import ScriptPress.Proofs.Rereading.Operand

/-! # Reading accesses and calls again

An access or a call goes on from the object before it, as one turn of the repetition behind an
operand. The callee of a `new` holds no call, so that the arguments behind it are those of the
`new`.
-/
namespace ScriptPress.Grammar
open Lexer Render

section
variable {x : Tape} {s₀ : State} {id : NodeId} {data : Node} {t left right : Tree}
  {args : List Tree} {noIn b : Bool} {place : Place} {more : List WriterStep}

/-! ## Arguments -/

/-- The arguments of a call as they are written. -/
def argumentsAt (o : RenderOptions) (args : List Tree) : List WriterStep :=
  .token "(" :: separated (args.map fun t => exprAt o t { use := .operand Precedence.assignment })
    ++ [.token ")"]

theorem argumentSteps_eq (o : RenderOptions) (args : List Tree) :
    argumentSteps (args.map (part o)) = argumentsAt o args := by
  simp [argumentSteps, argumentsAt, Function.comp_def]

theorem argumentsAt_same {o : RenderOptions} (ho : x.Suffices o) {args' : List Tree}
    (h : List.Forall₂ x.Redraws args args') :
    SameRun (argumentsAt o args') (argumentsAt o args) :=
  .cons _ ((separated_same h.flip fun _ _ ht => ht.drawn o ho _).behind _)

/-- An expression begins with no sign that closes something. -/
theorem expr_head (ht : Formed x.dialect .expr t) (place : Place) {tag : Tag}
    (htag : tag ∉ operandTags ++ prefixTags) :
    ∀ w ∈ (x.words b false (exprAt x.o t place ++ more)).head?, w.sym.tag ≠ tag := by
  obtain ⟨w, ws, hbegin, hwords⟩ := (ht.heads place).words x.o.compact more
  rw [Tape.words, hwords]
  rintro w' ⟨rfl⟩ rfl
  exact htag (List.mem_append.mpr hbegin.listed)

/-- An item of a list in parentheses, brackets or braces. -/
theorem item_takes {closer : Tag} {text : String} (ht : ExprYields x t) (n : Nat)
    (hclose : closer ∈ closers ∧ closer ∈ everywhere ∧ signText closer none = text)
    {zs : List WriterStep} (hzs : Follows (.token text :: more) zs) :
    Takes x s₀ n ((nested n).assignment false)
      (x.words b false (exprAt x.o t { use := .operand Precedence.assignment } ++ zs))
      (x.Redraws t) (x.words false false zs) := by
  have hstop : Stops Precedence.assignment false (x.words false false zs) :=
    stops_follows x closer hclose.1 hclose.2.1 hclose.2.2 hzs
  have hread : Yields x s₀ (readerAt false Precedence.assignment) _ _ _ :=
    ht.operand _ _ { use := .operand Precedence.assignment } b _ rfl (by decide)
      (fun h => nomatch h) hstop
  exact hread.inner (nests_assignment false) n

theorem arguments_yields (hformed : ∀ t ∈ args, Formed x.dialect .expr t)
    (hall : ∀ t ∈ args, ExprYields x t) :
    Yields x s₀ (·.arguments) (x.words b false (argumentsAt x.o args ++ more))
      (List.Forall₂ x.Redraws args) (x.words false false more) := by
  have hsteps : argumentsAt x.o args ++ more = .token "(" :: (separated (args.map fun t =>
      exprAt x.o t { use := .operand Precedence.assignment }) ++ .token ")" :: more) := by
    simp [argumentsAt]
  have hclose : x.words false false (.token ")" :: more)
      = ⟨⟨.rightParen, none, none⟩, false⟩ :: x.words false false more :=
    x.words_text ")" .rightParen (by decide) rfl more
  have hlt := x.length_words_behind false false
    (separated (args.map fun t => exprAt x.o t { use := .operand Precedence.assignment }))
    (.token ")" :: more)
  rw [hsteps, x.words_text "(" .leftParen (by decide) rfl]
  refine ⟨?_, fun n s hn hfed => ?_⟩
  · change (x.words false false (.token ")" :: more)).length ≤ (x.words false false _).length at hlt
    rw [hclose] at hlt
    exact Nat.lt_of_lt_of_le (Nat.lt_succ_self _) (Nat.le_succ_of_le hlt)
  have hlast : ∀ args' s₂, List.Forall₂ x.Redraws args args' →
      Fed x s₀ (x.words false false (.token ")" :: more)) s₂ →
      Ensures True (expect .rightParen .parenAfterArguments >>= fun _ => pure args') s₂
        fun args' s' => List.Forall₂ x.Redraws args args' ∧ Fed x s₀ (x.words false false more) s' := by
    intro args' s₂ hargs hs₂
    rw [hclose] at hs₂
    exact hs₂.expect rfl (by decide) fun s₃ hs₃ => ensures_pure ⟨hargs, hs₃⟩
  refine hfed.advance (by simp) fun s₁ hs₁ => ?_
  cases args with
  | nil =>
    refine ensures_ifCheck (fun _ => hlast [] s₁ .nil hs₁) fun hne => absurd ?_ hne
    change Fed x s₀ (x.words false false (.token ")" :: more)) s₁ at hs₁
    rw [hclose] at hs₁
    exact hs₁.tag_eq (by simp)
  | cons t args =>
    have hhead : ∀ w ∈ (x.words false false (separated ((t :: args).map fun t =>
        exprAt x.o t { use := .operand Precedence.assignment })
          ++ .token ")" :: more)).head?, w.sym.tag ≠ .rightParen := by
      cases args with
      | nil => exact expr_head (hformed t (by simp)) _ (by decide)
      | cons t' args =>
        have hsplit : separated ((t :: t' :: args).map fun t =>
            exprAt x.o t { use := .operand Precedence.assignment }) ++ .token ")" :: more
            = exprAt x.o t { use := .operand Precedence.assignment } ++ (.token "," :: .space
              :: (separated ((t' :: args).map fun t =>
                exprAt x.o t { use := .operand Precedence.assignment }) ++ .token ")" :: more)) := by
          simp [separated]
        rw [hsplit]
        exact expr_head (hformed t (by simp)) _ (by decide)
    refine ensures_ifCheck (fun heq => absurd heq (hs₁.head_ne hhead (by decide))) fun _ => ?_
    have hitems : Collects x s₀ n (separatedTurn ((nested n).assignment false))
        (x.words false false (separated ((t :: args).map fun t =>
          exprAt x.o t { use := .operand Precedence.assignment }) ++ .token ")" :: more))
        (List.Forall₂ x.Redraws []) (List.Forall₂ x.Redraws ([] ++ t :: args))
        (x.words false false (.token ")" :: more)) := by
      refine collects_separated (by simp) (fun t' ht' zs hzs => ?_) ?_
      · exact item_takes (hall t' ht') n (by decide : Tag.rightParen ∈ _ ∧ _ ∧ _) hzs
      · rw [hclose]
        rintro w ⟨rfl⟩
        simp
    exact (hitems.repeatTurns hn .nil hs₁).bind fun args' s₂ hread => hlast args' s₂ hread.1 hread.2

theorem regains_all {ts ts' : List Tree} (h : List.Forall₂ x.Redraws ts ts') :
    List.Forall₂ x.Regains ts ts' := h.imp fun _ _ h => h.toRegains

/-! ## Calls -/

theorem call_yields (h : data.Plain { tag := .call }) (hcallee : ExprYields x left)
    (hformed : ∀ t ∈ args, Formed x.dialect .expr t) (hall : ∀ t ∈ args, ExprYields x t) :
    BareYields x (.node id data (left :: args)) := by
  have htag : data.tag = .call := congrArg Core.tag h.core
  have hcontains : (Tree.node id data (left :: args)).containsCall = true := by
    rw [containsCall_node, htag]
    rfl
  refine .of_member (precedence_tight htag (by decide)) fun {s₀ allowCall place b more}
    noIn hallow hstop => ?_
  have hcan : allowCall = true := by simpa [hcontains] using hallow
  subst hcan
  have hobject := hcallee.member s₀ true (place.lead .object) b (argumentsAt x.o args ++ more)
    (.inl rfl) fun _ => .inl rfl
  have hargs : Yields x s₀ (·.arguments) (x.words false false (argumentsAt x.o args ++ more))
      (List.Forall₂ x.Redraws args) (x.words false false more) := arguments_yields hformed hall
  rw [bareAt_call h.core, argumentSteps_eq, List.append_assoc]
  refine hobject.turn hargs.shorter fun n s left' hn hleft' hfed => ?_
  have hcurrent : s.current.tag = .leftParen := by
    have hfaces := hfed
    rw [argumentsAt, List.append_assoc, List.cons_append,
      x.words_text "(" .leftParen (by decide) rfl] at hfaces
    exact hfaces.tag_eq (by simp)
  refine ensures_get ?_
  simp only [hcurrent, if_true]
  refine (hargs.ensures n s (Nat.le_of_lt hn) hfed).bind fun args' s₁ hread => ?_
  obtain ⟨hargs', hs₁⟩ := hread
  have hlast : ∀ s₂, Fed x s₀ (x.words false false more) s₂ → Ensures True
      (makeNode (.call .call left'.data s.current.line) (left' :: args')
        >>= fun t => pure (Turn.again t : Turn Tree Tree)) s₂ fun turn s' => ∃ t', turn = .again t'
          ∧ x.Redraws (.node id data (left :: args)) t' ∧ Fed x s₀ (x.words false false more) s' := by
    intro s₂ hs₂
    refine hs₂.makeNode fun id' s₃ _ hs₃ => ensures_pure ⟨_, rfl, ?_, hs₃⟩
    have hplain := Node.plain_call .call left'.data s.current.line
    refine redraws_node h hplain (by simp) (.cons hleft'.toRegains (regains_all hargs'))
      fun o ho place => ?_
    rw [bareAt_call h.core, bareAt_call hplain.core, argumentSteps_eq, argumentSteps_eq]
    exact (hleft'.drawn o ho _).append (argumentsAt_same ho hargs')
  split
  · exact hs₁.modifyScope rfl fun s₂ hs₂ => hlast s₂ hs₂
  · exact hlast s₁ hs₁

/-- The callee of a `new`, in front of words that begin with a parenthesis or with no access. -/
theorem callee_yields (hcallee : ExprYields x left) {mid : List WriterStep}
    (hmid : ∀ s, Fed x s₀ (x.words false false mid) s →
      s.current.tag ≠ .dot ∧ s.current.tag ≠ .leftBracket) :
    Yields x s₀ (·.memberOf false)
      (x.words false false (exprAt x.o left { use := .callee, noIn } ++ mid)) (x.Redraws left)
      (x.words false false mid) := by
  have hcalled := hcallee.member s₀ false { use := .callee, noIn } false mid (.inr rfl)
    fun huse => nomatch huse
  refine hcalled.yields fun n s t' hfed => ?_
  exact access_ends _ t' (hmid s hfed).1 (hmid s hfed).2 fun h => nomatch h

theorem redraws_construct (h : data.Plain { tag := .kwNew }) {left' : Tree} {args' : List Tree}
    (hleft : x.Redraws left left') (hargs : List.Forall₂ x.Redraws args args') (id' : NodeId)
    (line : Nat) : x.Redraws (.node id data (left :: args))
      (.node id' (.call .kwNew left'.data line) (left' :: args')) := by
  have hplain := Node.plain_call .kwNew left'.data line
  refine redraws_node h hplain (by simp) (.cons hleft.toRegains (regains_all hargs))
    fun o ho place => ?_
  have hleaves : leavesOut args' place = leavesOut args place := by
    have hempty : args'.isEmpty = args.isEmpty := by cases hargs <;> rfl
    rw [leavesOut, leavesOut, hempty]
  rw [bareAt_construct h.core, bareAt_construct hplain.core, hleaves, argumentSteps_eq,
    argumentSteps_eq]
  refine .append (.cons _ (hleft.drawn o ho _)) ?_
  split
  · exact .refl _
  · exact argumentsAt_same ho hargs

/-- What is read behind the callee of a `new`: its arguments, or none. -/
theorem optionalArguments (hformed : ∀ t ∈ args, Formed x.dialect .expr t)
    (hall : ∀ t ∈ args, ExprYields x t) {mid : List WriterStep}
    (hmid : mid = argumentsAt x.o args ++ more ∨ (mid = more ∧ args = []
      ∧ Stops Precedence.member noIn (x.words false false more))) {n : Nat} {s : State}
    {f : List Tree → Reading Tree} {Q : Tree → State → Prop}
    (hn : (x.words false false mid).length ≤ n) (hs : Fed x s₀ (x.words false false mid) s)
    (hf : ∀ args' s', List.Forall₂ x.Redraws args args' → Fed x s₀ (x.words false false more) s' →
      Ensures True (f args') s' Q) :
    Ensures True (check .leftParen >>= fun b =>
      if b = true then (nested n).arguments >>= f else pure [] >>= f) s Q := by
  rcases hmid with rfl | ⟨rfl, rfl, hstops⟩
  · have hargs : Yields x s₀ (·.arguments) (x.words false false (argumentsAt x.o args ++ more))
        (List.Forall₂ x.Redraws args) (x.words false false more) := arguments_yields hformed hall
    refine ensures_ifCheck (fun _ => ?_) fun hne => absurd ?_ hne
    · exact (hargs.ensures n s hn hs).bind fun args' s' hread => hf args' s' hread.1 hread.2
    · rw [argumentsAt, List.append_assoc, List.cons_append,
        x.words_text "(" .leftParen (by decide) rfl] at hs
      exact hs.tag_eq (by simp)
  · refine ensures_ifCheck (fun heq => absurd heq (hs.no_access hstops).2.2) fun _ => ?_
    exact ensures_let (hf [] s .nil hs)

theorem construct_yields (h : data.Plain { tag := .kwNew }) (hcallee : ExprYields x left)
    (hformed : ∀ t ∈ args, Formed x.dialect .expr t) (hall : ∀ t ∈ args, ExprYields x t) :
    BareYields x (.node id data (left :: args)) := by
  have htag : data.tag = .kwNew := congrArg Core.tag h.core
  refine .of_member (precedence_tight htag (by decide)) fun {s₀ allowCall place b more}
    noIn _ hstop => ?_
  -- behind the callee stand the arguments, or what stops every access
  obtain ⟨mid, hsteps, hmid⟩ : ∃ mid, bareAt x.o (.node id data (left :: args)) place ++ more
      = .token "new" :: (exprAt x.o left { use := .callee, noIn := place.noIn } ++ mid)
      ∧ (mid = argumentsAt x.o args ++ more ∨ (mid = more ∧ args = []
        ∧ Stops Precedence.member noIn (x.words false false more))) := by
    rw [bareAt_construct h.core, argumentSteps_eq]
    split
    · next hleaves =>
      rw [leavesOut, Bool.and_eq_true] at hleaves
      refine ⟨more, by simp, .inr ⟨rfl, List.isEmpty_iff.mp hleaves.1, ?_⟩⟩
      cases huse : place.use with
      | operand level => exact hstop level huse
      | object => simp [huse] at hleaves
      | callee => simp [huse] at hleaves
    · exact ⟨argumentsAt x.o args ++ more, by simp, .inl rfl⟩
  have hle : (x.words false false more).length ≤ (x.words false false mid).length := by
    rcases hmid with rfl | ⟨rfl, -, -⟩
    · exact length_words_append false false false (argumentsAt x.o args) more
    · exact Nat.le_refl _
  have hyields : Yields x s₀ (·.memberOf false)
      (x.words false false (exprAt x.o left { use := .callee, noIn := place.noIn } ++ mid))
      (x.Redraws left) (x.words false false mid) := by
    refine callee_yields hcallee fun s hfed => ?_
    rcases hmid with rfl | ⟨rfl, -, hs⟩
    · rw [argumentsAt, List.append_assoc, List.cons_append,
        x.words_text "(" .leftParen (by decide) rfl] at hfed
      rw [hfed.tag_eq (by simp)]
      simp
    · obtain ⟨hdot, hbracket, -⟩ := hfed.no_access hs
      exact ⟨hdot, hbracket⟩
  have hlt := hyields.shorter
  rw [hsteps, x.words_text "new" .kwNew (by decide) rfl]
  refine ⟨by rw [List.length_cons]; omega, fun n s Q hn hs hQ => ensures_get ?_⟩
  have hcurrent : s.current.tag = .kwNew := hs.tag_eq (by simp)
  rw [List.length_cons] at hn
  dsimp only
  rw [if_pos (by simp [hcurrent])]
  refine hs.advance (by simp) fun s₁ hs₁ => ?_
  refine (hyields.inner (nests_member false) n).bind (by omega) hs₁ fun left' s₂ hleft' hs₂ => ?_
  refine optionalArguments hformed hall hmid (by omega) hs₂ fun args' s₃ hargs' hs₃ => ?_
  refine hs₃.makeNode fun id' s₄ _ hs₄ => hQ _ s₄ _ (redraws_construct h hleft' hargs' id' _) hs₄ ?_
  rw [bound_nested]
  omega

/-! ## Accesses -/

theorem property_yields {name : String} (h : data.Plain { tag := .getProp })
    (hname : IsNamed (fun s => IsName x.dialect s ∨ IsReserved x.dialect s) name right)
    (hobject : ExprYields x left) : BareYields x (.node id data [left, right]) := by
  have htag : data.tag = .getProp := congrArg Core.tag h.core
  have hcontains : (Tree.node id data [left, right]).containsCall = left.containsCall := by
    rw [containsCall_node, htag]
    rfl
  obtain ⟨tag, hworded, hlexeme⟩ : ∃ tag, (tag = .identifier ∨ tag = .reserved)
      ∧ IsLexeme x.dialect name.toList ⟨tag, none, some name⟩ := by
    have hok := hname
    obtain ⟨-, hok⟩ := hok
    exact hok.elim (fun h => ⟨_, .inl rfl, h⟩) fun h => ⟨_, .inr rfl, h⟩
  have hr : tag ≠ .regExp := by rcases hworded with rfl | rfl <;> simp
  refine .of_member (precedence_tight htag (by decide)) fun {s₀ allowCall place b more}
    noIn hallow hstop => ?_
  rw [hcontains] at hallow
  have hleft := hobject.member s₀ allowCall (place.lead .object) b
    (.token "." :: .token name :: more) (.inl rfl) fun _ => hallow
  rw [x.words_text "." .dot (by decide) rfl, x.words_lexeme hlexeme] at hleft
  rw [bareAt_property h.core hname, List.append_assoc]
  refine hleft.turn (by simp only [List.length_cons]; omega) fun n s left' hn hleft' hfed => ?_
  have hcurrent : s.current.tag = .dot := hfed.tag_eq (by simp)
  refine ensures_get ?_
  simp only [hcurrent]
  refine hfed.advance (by simp) fun s₁ hs₁ => ?_
  have hsym : s₁.current.sym = ⟨tag, none, some name⟩ := hs₁.sym hr
  refine Ensures.bind (P := fun name' s' => name' = name ∧ Fed x s₀ (x.words false false more) s')
    ?_ fun name' s₂ hread => ?_
  · have hcurrent' : s₁.current.tag = tag := congrArg Sym.tag hsym
    rw [propertyName]
    refine ensures_get ?_
    rcases hworded with rfl | rfl
    · simp only [hcurrent']
      exact hs₁.advance hr fun s₂ hs₂ => ensures_pure ⟨shown_eq hsym, hs₂⟩
    · simp only [hcurrent']
      refine hs₁.advance hr fun s₂ hs₂ => ?_
      exact hs₂.warn fun s₃ hs₃ => ensures_pure ⟨shown_eq hsym, hs₃⟩
  · obtain ⟨rfl, hs₂⟩ := hread
    refine hs₂.makeNode fun id' s₃ _ hs₃ => ?_
    refine hs₃.makeNode fun id'' s₄ _ hs₄ => ensures_pure ⟨_, rfl, ?_, hs₄⟩
    have hplain := Node.plain_leaf .getProp s.current.line
    have hsame := Node.plain_identifier name' s.current.line
    refine redraws_node h hplain (by simp) (.cons hleft'.toRegains (.cons (regains_named hname) .nil))
      fun o ho place => ?_
    have hagain : IsNamed (fun _ => True) name' (.node id' (.identifier name' s.current.line) []) :=
      .mk hsame trivial
    rw [bareAt_property h.core hname, bareAt_property hplain.core hagain]
    exact (hleft'.drawn o ho _).behind _

theorem index_yields (h : data.Plain { tag := .getElem }) (hobject : ExprYields x left)
    (hindex : ExprYields x right) : BareYields x (.node id data [left, right]) := by
  have htag : data.tag = .getElem := congrArg Core.tag h.core
  have hcontains : (Tree.node id data [left, right]).containsCall = left.containsCall := by
    rw [containsCall_node, htag]
    rfl
  refine .of_member (precedence_tight htag (by decide)) fun {s₀ allowCall place b more}
    noIn hallow hstop => ?_
  rw [hcontains] at hallow
  have hclose : x.words false false (.token "]" :: more)
      = ⟨⟨.rightBracket, none, none⟩, false⟩ :: x.words false false more :=
    x.words_text "]" .rightBracket (by decide) rfl more
  have hstop : Stops Precedence.comma false (x.words false false (.token "]" :: more)) := by
    rw [hclose]
    exact stops_closer (by decide)
  have hinner := hindex.operand s₀ false { use := .operand Precedence.comma } false _ rfl
    (by decide) (fun h => nomatch h) hstop
  have hleft := hobject.member s₀ allowCall (place.lead .object) b
    (.token "[" :: (exprAt x.o right { use := .operand Precedence.comma } ++ .token "]" :: more))
    (.inl rfl) fun _ => hallow
  have hlt := hinner.shorter
  rw [hclose] at hinner hlt
  rw [x.words_text "[" .leftBracket (by decide) rfl] at hleft
  have hsteps : bareAt x.o (.node id data [left, right]) place ++ more
      = exprAt x.o left (place.lead .object) ++ .token "["
        :: (exprAt x.o right { use := .operand Precedence.comma } ++ .token "]" :: more) := by
    rw [bareAt_index h.core]
    simp
  rw [hsteps]
  refine hleft.turn ?_ fun n s left' hn hleft' hfed => ?_
  · rw [List.length_cons] at hlt ⊢
    omega
  have hcurrent : s.current.tag = .leftBracket := hfed.tag_eq (by simp)
  refine ensures_get ?_
  simp only [hcurrent]
  refine hfed.advance (by simp) fun s₁ hs₁ => ?_
  refine (Yields.inner hinner (nests_expression false) n).bind (Nat.lt_of_succ_lt hn) hs₁
    fun right' s₂ hright' hs₂ => ?_
  refine hs₂.expect rfl (by decide) fun s₃ hs₃ => ?_
  refine hs₃.makeNode fun id' s₄ _ hs₄ => ensures_pure ⟨_, rfl, ?_, hs₄⟩
  have hplain := Node.plain_leaf .getElem s.current.line
  refine redraws_node h hplain (by simp) (.cons hleft'.toRegains (.cons hright'.toRegains .nil))
    fun o ho place => ?_
  rw [bareAt_index h.core, bareAt_index hplain.core]
  exact ((hleft'.drawn o ho _).append (.cons _ (hright'.drawn o ho _))).behind _

end
end ScriptPress.Grammar
