import ScriptPress.Proofs.Rereading.Echo

/-! # Readers by the level they bind at

A reader yields a tree from words when, in front of them, it reads a tree that is written as the
first one and stops in front of others. The readers of expressions go down one level at a time: what is read at a level is
an expression of that level when the word behind it goes on at no such level. Where a level repeats
a step behind its first operand, an expression of the level leads into the repetition.
-/
namespace ScriptPress.Grammar
open Lexer

/-! ## Yields -/

section
variable {α β : Type} {x : Tape} {s₀ : State} {ws mid rest : List Word} {P : α → Prop} {t : Tree}

@[simp] theorem bound_nested (n : Nat) : (nested n).bound = n := by cases n <;> rfl

/-- A reader reads something from words and stops in front of others. -/
structure Yields (x : Tape) (s₀ : State) (m : Grammar → Reading α) (ws : List Word) (P : α → Prop)
    (rest : List Word) : Prop where
  shorter : rest.length < ws.length
  ensures : ∀ n s, ws.length ≤ n → Fed x s₀ ws s →
    Ensures True (m (nested n)) s fun a s' => P a ∧ Fed x s₀ rest s'

/-- The same of one reading at a depth that is more than enough. -/
structure Takes (x : Tape) (s₀ : State) (n : Nat) (m : Reading α) (ws : List Word) (P : α → Prop)
    (rest : List Word) : Prop where
  shorter : rest.length < ws.length
  ensures : ∀ s, ws.length < n → Fed x s₀ ws s →
    Ensures True m s fun a s' => P a ∧ Fed x s₀ rest s'

theorem Yields.takes {m : Grammar → Reading α} (h : Yields x s₀ m ws P rest) (n : Nat) :
    Takes x s₀ n (m (nested n)) ws P rest :=
  ⟨h.shorter, fun s hn hs => h.ensures n s (Nat.le_of_lt hn) hs⟩

/-- A reader for nested parts is the reader one level of nesting below. -/
def Nests (m m' : Grammar → Reading α) : Prop := ∀ n s, m (nested (n + 1)) s = m' (nested n) s

theorem nests_assignment (noIn : Bool) : Nests (·.assignment noIn) (·.assignmentOf noIn) :=
  fun _ _ => rfl

theorem nests_expression (noIn : Bool) : Nests (·.expression noIn) (·.expressionOf noIn) :=
  fun _ _ => rfl

theorem nests_member (allowCall : Bool) : Nests (·.member allowCall) (·.memberOf allowCall) :=
  fun _ _ => rfl

theorem nests_statement (top : Bool) : Nests (·.statement top) (·.statementOf top) :=
  fun _ _ => rfl

theorem Yields.inner {m m' : Grammar → Reading α} (h : Yields x s₀ m' ws P rest) (hm : Nests m m')
    (n : Nat) : Takes x s₀ n (m (nested n)) ws P rest := by
  refine ⟨h.shorter, fun s hn hs => ?_⟩
  cases n with
  | zero => omega
  | succ n =>
    have hgo := h.ensures n s (by omega) hs
    unfold Ensures at hgo ⊢
    rwa [hm n s]

theorem Takes.mono {n : Nat} {m : Reading α} {Q : α → Prop} (h : Takes x s₀ n m ws P rest)
    (hPQ : ∀ a, P a → Q a) : Takes x s₀ n m ws Q rest :=
  ⟨h.shorter, fun s hn hs => (h.ensures s hn hs).mono fun a _ ha => ⟨hPQ a ha.1, ha.2⟩⟩

theorem Takes.bind {n : Nat} {m : Reading α} {f : α → Reading β} {Q : β → State → Prop}
    {s : State} (h : Takes x s₀ n m ws P rest) (hn : ws.length < n) (hs : Fed x s₀ ws s)
    (hf : ∀ a s', P a → Fed x s₀ rest s' → Ensures True (f a) s' Q) :
    Ensures True (m >>= f) s Q :=
  (h.ensures s hn hs).bind fun a s' ha => hf a s' ha.1 ha.2

/-! ## Repetitions -/

/-- A reader reads a tree and goes on with a repetition of a step. -/
structure Continues (x : Tape) (s₀ : State) (m : Grammar → Reading Tree)
    (step : Grammar → Tree → Reading (Turn Tree Tree)) (ws : List Word) (t : Tree)
    (rest : List Word) : Prop where
  shorter : rest.length < ws.length
  ensures : ∀ n s Q, ws.length ≤ n → Fed x s₀ ws s →
    (∀ t' s' fuel, x.Redraws t t' → Fed x s₀ rest s' → rest.length < fuel →
      Ensures True (iterate (step (nested n)) fuel t') s' Q) → Ensures True (m (nested n)) s Q

namespace Continues
variable {m m' : Grammar → Reading Tree} {step : Grammar → Tree → Reading (Turn Tree Tree)}
  {left : Tree}

theorem of_yields (h : Yields x s₀ m' ws (x.Redraws t) rest)
    (hm : ∀ g, m g = m' g >>= g.repeatTurns (step g)) : Continues x s₀ m step ws t rest := by
  refine ⟨h.shorter, fun n s Q hn hs hQ => ?_⟩
  rw [hm]
  refine (h.ensures n s hn hs).bind fun t' s' ht => ?_
  obtain ⟨ht, hs'⟩ := ht
  have hfuel := h.shorter
  exact hQ t' s' _ ht hs' (by rw [bound_nested]; omega)

/-- One more turn. -/
theorem turn (h : Continues x s₀ m step ws left mid) (hlt : rest.length < mid.length)
    (hstep : ∀ n s left', mid.length < n → x.Redraws left left' → Fed x s₀ mid s →
      Ensures True (step (nested n) left') s fun turn s' =>
        ∃ t', turn = .again t' ∧ x.Redraws t t' ∧ Fed x s₀ rest s') :
    Continues x s₀ m step ws t rest := by
  have hshorter := h.shorter
  refine ⟨by omega, fun n s Q hn hs hQ => ?_⟩
  refine h.ensures n s Q hn hs fun left' s' fuel hleft hs' hfuel => ?_
  cases fuel with
  | zero => omega
  | succ fuel =>
    rw [iterate]
    refine (hstep n s' left' (by omega) hleft hs').bind fun turn s'' hturn => ?_
    obtain ⟨t', rfl, ht, hs''⟩ := hturn
    exact hQ t' s'' fuel ht hs'' (by omega)

/-- The repetition ends where its step does. -/
theorem yields (h : Continues x s₀ m step ws t rest)
    (hstop : ∀ n s t', Fed x s₀ rest s → step (nested n) t' s = .ok (.done t', s)) :
    Yields x s₀ m ws (x.Redraws t) rest := by
  refine ⟨h.shorter, fun n s hn hs => ?_⟩
  refine h.ensures n s _ hn hs fun t' s' fuel ht hs' hfuel => ?_
  cases fuel with
  | zero => omega
  | succ fuel =>
    rw [iterate]
    have hdone := hstop n s' t' hs'
    refine Ensures.bind (ensures_of_ok hdone ⟨rfl, rfl⟩ : Ensures True _ s' fun turn s'' =>
      turn = .done t' ∧ s'' = s') fun turn s'' hturn => ?_
    obtain ⟨rfl, rfl⟩ := hturn
    exact ensures_pure ⟨ht, hs'⟩

end Continues
end

/-! ## Levels -/

/-- The level at which a word behind an operand goes on. A regular expression looks like a
division; it goes on behind everything. -/
def goesOn (noIn : Bool) (s : Sym) : Option Nat :=
  match s.tag with
  | .comma => some Precedence.comma
  | .assign => some Precedence.assignment
  | .question => some Precedence.conditional
  | .increment | .decrement => some Precedence.postfixStep
  | .dot | .leftBracket | .leftParen | .regExp => some Precedence.member
  | _ => (binaryOperator? noIn s.token).bind fun op => op.1.binaryPrecedence?

/-- Words that do not go on at a level or above it. -/
def Stops (level : Nat) (noIn : Bool) (ws : List Word) : Prop :=
  ∀ w ∈ ws.head?, ∀ k ∈ goesOn noIn w.sym, k < level

/-- The reader of the expressions of a level. -/
def readerAt (noIn : Bool) (level : Nat) (g : Grammar) : Reading Tree :=
  if level ≤ Precedence.comma then g.expressionOf noIn
  else if level = Precedence.assignment then g.assignmentOf noIn
  else if level = Precedence.conditional then g.conditionalOf noIn
  else if level ≤ Precedence.unary then g.binaryOf noIn (Precedence.unary - level)
  else if level = Precedence.postfixStep then g.steppedOperand
  else g.memberOf true

/-- The step that is repeated at a level, for sequences and binary operations. -/
def turnAt (noIn : Bool) (level : Nat) (g : Grammar) : Tree → Reading (Turn Tree Tree) :=
  if level ≤ Precedence.comma then sequenceTurn (g.assignmentOf noIn)
  else binaryTurn noIn level (readerAt noIn (level + 1) g)

/-- The levels that repeat a step. -/
def Repeats (level : Nat) : Prop :=
  level = Precedence.comma ∨ (Precedence.or ≤ level ∧ level ≤ Precedence.multiplicative)

instance (level : Nat) : Decidable (Repeats level) :=
  inferInstanceAs (Decidable (_ ∨ _ ∧ _))

section
variable {x : Tape} {level : Nat} {noIn : Bool} {ws rest : List Word} {s₀ s : State} {t : Tree}

theorem Stops.mono {level' : Nat} (h : Stops level noIn ws) (hl : level ≤ level') :
    Stops level' noIn ws := fun w hw k hk => Nat.lt_of_lt_of_le (h w hw k hk) hl

theorem readerAt_repeats (h : Repeats level) (g : Grammar) :
    readerAt noIn level g = readerAt noIn (level + 1) g >>= g.repeatTurns (turnAt noIn level g) := by
  rcases h with rfl | ⟨hlow, hhigh⟩
  · rfl
  · obtain ⟨j, hj⟩ : ∃ j, Precedence.unary - level = j + 1 := ⟨Precedence.multiplicative - level, by
      change 14 - level = 13 - level + 1
      change level ≤ 13 at hhigh
      omega⟩
    have hlevel : Precedence.multiplicative - j = level ∧ Precedence.unary - (level + 1) = j := by
      change 14 - level = j + 1 at hj
      change 13 - j = level ∧ 14 - (level + 1) = j
      omega
    change 4 ≤ level at hlow
    change level ≤ 13 at hhigh
    have hthis : ∀ k, 4 ≤ k → k ≤ 14 → readerAt noIn k g = g.binaryOf noIn (Precedence.unary - k) := by
      intro k hk hk'
      rw [readerAt, if_neg (by change ¬ k ≤ 1; omega), if_neg (by change ¬ k = 2; omega),
        if_neg (by change ¬ k = 3; omega), if_pos hk']
    have hturn : turnAt noIn level g = binaryTurn noIn level (g.binaryOf noIn j) := by
      rw [turnAt, if_neg (by change ¬ level ≤ 1; omega), hthis (level + 1) (by omega) (by omega),
        hlevel.2]
    rw [hturn, hthis level hlow (by omega), hthis (level + 1) (by omega) (by omega), hlevel.2, hj,
      binaryOf, hlevel.1]

/-! ### Where a level ends -/

/-- Operators go on at their levels. -/
theorem goesOn_operator {s : Sym} {op : Tag × Option Tag} {k : Nat}
    (h : binaryOperator? noIn s.token = some op) (hk : op.1.binaryPrecedence? = some k) :
    goesOn noIn s = some k := by
  rw [goesOn]
  split
  all_goals first
    | next htag => simp [binaryOperator?, Sym.token, htag, Tag.binaryPrecedence?] at h
    | rw [h, Option.bind_some, hk]

/-- The current token goes on below the level that the words stop at. -/
theorem Fed.goesOn_lt {s : State} (h : Fed x s₀ ws s) (hs : Stops level noIn ws)
    (hl : level ≤ Precedence.member) :
    ∀ k ∈ goesOn noIn s.current.sym, k < level := by
  cases ws with
  | nil =>
    have htag : s.current.sym.tag = .endOfInput := h.tag_nil
    simp [goesOn, htag, binaryOperator?, Sym.token, Tag.binaryPrecedence?]
  | cons w ws =>
    by_cases hr : w.sym.tag = .regExp
    · have hlt := hs w rfl Precedence.member (by simp [goesOn, hr])
      omega
    · rw [h.sym hr]
      exact hs w rfl

/-- The current token has no tag that goes on at the level that the words stop at. -/
theorem Fed.stops {s : State} {tag : Tag} {k : Nat} (h : Fed x s₀ ws s) (hs : Stops level noIn ws)
    (hl : level ≤ Precedence.member) (hk : level ≤ k)
    (htag : ∀ s : Sym, s.tag = tag → goesOn noIn s = some k) : s.current.tag ≠ tag := by
  intro hcurrent
  have hlt := h.goesOn_lt hs hl k (htag _ hcurrent)
  omega

section
variable {s : State} {left : Tree} {k : Nat}

theorem Fed.no_comma (h : Fed x s₀ ws s) (hs : Stops Precedence.comma noIn ws) :
    s.current.tag ≠ .comma :=
  h.stops hs (by decide) (Nat.le_refl _) fun s htag => by rw [goesOn, htag]

theorem Fed.no_assign (h : Fed x s₀ ws s) (hs : Stops Precedence.assignment noIn ws) :
    s.current.tag ≠ .assign :=
  h.stops hs (by decide) (Nat.le_refl _) fun s htag => by rw [goesOn, htag]

theorem Fed.no_question (h : Fed x s₀ ws s) (hs : Stops Precedence.conditional noIn ws) :
    s.current.tag ≠ .question :=
  h.stops hs (by decide) (Nat.le_refl _) fun s htag => by rw [goesOn, htag]

theorem Fed.no_step (h : Fed x s₀ ws s) (hs : Stops Precedence.postfixStep noIn ws) :
    isStep s.current = false := by
  have hinc : s.current.tag ≠ .increment :=
    h.stops hs (by decide) (Nat.le_refl _) fun s htag => by rw [goesOn, htag]
  have hdec : s.current.tag ≠ .decrement :=
    h.stops hs (by decide) (Nat.le_refl _) fun s htag => by rw [goesOn, htag]
  simp [isStep, hinc, hdec]

theorem Fed.no_access (h : Fed x s₀ ws s) (hs : Stops Precedence.member noIn ws) :
    s.current.tag ≠ .dot ∧ s.current.tag ≠ .leftBracket ∧ s.current.tag ≠ .leftParen := by
  refine ⟨?_, ?_, ?_⟩ <;>
    exact h.stops hs (by decide) (Nat.le_refl _) fun s htag => by rw [goesOn, htag]

theorem turn_done (hk : Repeats k) (h : Fed x s₀ ws s) (hs : Stops k noIn ws) (g : Grammar) :
    turnAt noIn k g left s = .ok (.done left, s) := by
  rcases hk with rfl | ⟨hlow, hhigh⟩
  · have hno := h.no_comma hs
    rw [turnAt, if_pos (Nat.le_refl _), sequenceTurn]
    simp only [check, bind_assoc, pure_bind]
    rw [bind_ok (rfl : (get : Reading State) s = .ok (s, s))]
    simp [hno]
    rfl
  · have hlevel : ¬ k ≤ Precedence.comma := by
      change 4 ≤ k at hlow
      change ¬ k ≤ 1
      omega
    have hle : k ≤ Precedence.member := Nat.le_trans hhigh (by decide)
    rw [turnAt, if_neg hlevel, binaryTurn]
    rw [bind_ok (rfl : (get : Reading State) s = .ok (s, s))]
    cases hop : binaryOperator? noIn s.current with
    | none => rfl
    | some op =>
      obtain ⟨tag, datum⟩ := op
      have hne : (tag.binaryPrecedence? == some k) = false := by
        rw [beq_eq_false_iff_ne]
        intro heq
        have hlt := h.goesOn_lt hs hle k (goesOn_operator hop heq)
        omega
      simp only [hne]
      rfl

end

/-! ### From a level to the ones below -/

/-- Words that begin with no operator in front of an operand. -/
def Unprefixed (ws : List Word) : Prop := ∀ w ∈ ws.head?, w.sym.tag ∉ prefixTags

theorem Fed.unprefixed {s : State} (h : Fed x s₀ ws s) (hw : Unprefixed ws) (hne : ws ≠ []) :
    s.current.tag ∉ prefixTags := by
  cases ws with
  | nil => exact absurd rfl hne
  | cons w ws =>
    by_cases hr : w.sym.tag = .regExp
    · have hslash := h.slash hr
      rw [Token.isSlash] at hslash
      intro hmem
      simp only [prefixTags, List.mem_cons, List.not_mem_nil, or_false] at hmem
      rcases hmem with hmem | hmem | hmem | hmem | hmem <;> simp [hmem] at hslash
    · rw [h.tag_eq hr]
      exact hw w rfl

theorem Yields.descend (h : Yields x s₀ (readerAt noIn (level + 1)) ws (x.Redraws t) rest)
    (hs : Stops level noIn rest) (hlow : 1 ≤ level) (hhigh : level < Precedence.member)
    (hbare : level = Precedence.unary → Unprefixed ws) :
    Yields x s₀ (readerAt noIn level) ws (x.Redraws t) rest := by
  change level < 16 at hhigh
  by_cases hrep : Repeats level
  · exact (Continues.of_yields h (readerAt_repeats hrep)).yields
      fun n s t' hfed => turn_done hrep hfed hs _
  have hcases : level = 2 ∨ level = 3 ∨ level = 14 ∨ level = 15 := by
    by_contra hno
    apply hrep
    change level = 1 ∨ 4 ≤ level ∧ level ≤ 13
    omega
  refine ⟨h.shorter, fun n s hn hfed => ?_⟩
  have hgo := h.ensures n s hn hfed
  rcases hcases with rfl | rfl | rfl | rfl
  · refine Ensures.bind hgo fun t' s' ht => ?_
    exact ensures_ifCheck (fun htag => absurd htag (ht.2.no_assign hs)) fun _ => ensures_pure ht
  · refine Ensures.bind hgo fun t' s' ht => ?_
    exact ensures_ifCheck (fun htag => absurd htag (ht.2.no_question hs)) fun _ => ensures_pure ht
  · have hne : ws ≠ [] := by
      rintro rfl
      exact absurd h.shorter (Nat.not_lt_zero _)
    have hnone := hfed.unprefixed (hbare rfl) hne
    have hstep : isStep s.current = false := by
      rw [isStep]
      simp only [prefixTags, List.mem_cons, not_or] at hnone
      simp [hnone]
    have hunary : unaryOperator? s.current = none := by
      rw [unaryOperator?]
      simp only [prefixTags, List.mem_cons, not_or] at hnone
      split <;> simp_all
    change Ensures True ((nested n).unaryOf) s _
    rw [unaryOf]
    refine ensures_get ?_
    simp only [hunary, hstep]
    exact hgo
  · refine Ensures.bind hgo fun t' s' ht => ensures_get ?_
    simpa [ht.2.no_step hs] using ensures_pure ht

/-- What is read at a level is read at those below, as far as the words behind go on at none of
them. -/
theorem Yields.below {high : Nat} (h : Yields x s₀ (readerAt noIn high) ws (x.Redraws t) rest)
    (hle : level ≤ high) (hs : Stops level noIn rest) (hlow : 1 ≤ level)
    (hhigh : high ≤ Precedence.member)
    (hbare : level ≤ Precedence.unary → Precedence.unary < high → Unprefixed ws) :
    Yields x s₀ (readerAt noIn level) ws (x.Redraws t) rest := by
  induction high, hle using Nat.le_induction with
  | base => exact h
  | succ k hk ih =>
    refine ih (h.descend (hs.mono hk) (by omega) (by omega) fun hu => hbare (by omega) (by omega))
      (by omega) fun hl hu => hbare hl (by omega)

end
end ScriptPress.Grammar
