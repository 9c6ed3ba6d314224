import ScriptPress.Proofs.Rereading.Items

/-! # Expressions at their places

What is written of an expression without parentheses is read by the reader of the expression's own
level. At a place it is read by the readers of the place's level, since parentheses are written
around an expression that binds less tightly than that.
-/
namespace ScriptPress.Grammar
open Lexer Render

/-! ## Words behind expressions -/

/-- The signs that go on with no expression. -/
def closers : List Tag := [.rightParen, .rightBracket, .rightBrace, .colon, .semicolon]

section
variable {x : Tape} {level k : Nat} {noIn b : Bool} {w : Word} {ws : List Word} {tag : Tag}
  {more : List WriterStep}

theorem Stops.of_head (h : ∀ k ∈ goesOn noIn w.sym, k < level) : Stops level noIn (w :: ws) := by
  rintro w' ⟨rfl⟩
  exact h

theorem stops_closer (h : tag ∈ closers) :
    Stops level noIn (⟨⟨tag, none, none⟩, b⟩ :: ws) := by
  have hall : ∀ tag ∈ closers, ∀ noIn, goesOn noIn ⟨tag, none, none⟩ = none := by decide
  refine .of_head fun k hk => ?_
  rw [hall tag h] at hk
  cases hk

/-- A sign that goes on below a level. -/
theorem stops_sign (htag : ∀ noIn, goesOn noIn ⟨tag, none, none⟩ = some k) (hk : k < level) :
    Stops level noIn (⟨⟨tag, none, none⟩, b⟩ :: ws) := by
  refine .of_head fun k' hk' => ?_
  rw [htag] at hk'
  cases hk'
  exact hk

/-- Behind an item in parentheses, brackets or braces. -/
theorem stops_follows (x : Tape) {zs : List WriterStep} {text : String} (tag : Tag)
    (htag : tag ∈ closers) (hin : tag ∈ everywhere) (ht : signText tag none = text)
    (h : Follows (.token text :: more) zs) :
    Stops Precedence.assignment noIn (x.words b false zs) := by
  rcases h with rfl | ⟨ys, rfl⟩
  · rw [x.words_text text tag hin ht]
    exact stops_closer htag
  · rw [x.words_text "," .comma (by decide) rfl]
    exact stops_sign (fun _ => rfl) (by decide)

end

/-! ## Expressions at places -/

section
variable {x : Tape} {s₀ : State} {t : Tree} {level : Nat} {noIn allowCall b : Bool} {place : Place}
  {ws rest : List Word} {more : List WriterStep}

/-- The levels of the operands of expressions. No place is for conditional expressions alone. -/
def IsPlaceLevel (level : Nat) : Prop :=
  1 ≤ level ∧ level ≤ Precedence.member ∧ level ≠ Precedence.conditional

instance (level : Nat) : Decidable (IsPlaceLevel level) :=
  inferInstanceAs (Decidable (_ ∧ _ ∧ _))

/-- An expression is read at every place from what is written of it there. -/
structure ExprYields (x : Tape) (t : Tree) : Prop where
  operand : ∀ s₀ noIn place (b : Bool) more {level}, place.use = .operand level →
    IsPlaceLevel level → (noIn = true → place.noIn = true) →
    Stops level noIn (x.words false false more) →
    Yields x s₀ (readerAt noIn level) (x.words b false (exprAt x.o t place ++ more)) (x.Redraws t)
      (x.words false false more)
  loops : ∀ s₀ noIn place (b : Bool) more {level}, place.use = .operand level → Repeats level →
    (noIn = true → place.noIn = true) → Stops (level + 1) noIn (x.words false false more) →
    Continues x s₀ (readerAt noIn level) (turnAt noIn level)
      (x.words b false (exprAt x.o t place ++ more)) t (x.words false false more)
  member : ∀ s₀ allowCall place (b : Bool) more, place.use = .object ∨ place.use = .callee →
    (place.use = .object → allowCall = true ∨ t.containsCall = false) →
    Continues x s₀ (·.memberOf allowCall) (·.access allowCall)
      (x.words b false (exprAt x.o t place ++ more)) t (x.words false false more)

/-- An expression is read by the reader of its own level from what is written of it without
parentheses. -/
structure BareYields (x : Tape) (t : Tree) : Prop where
  member : Precedence.member ≤ t.data.precedence → ∀ {s₀ allowCall place} {b : Bool} {more} (noIn : Bool),
    allowCall = true ∨ t.containsCall = false →
    (∀ level, place.use = .operand level → Stops Precedence.member noIn (x.words false false more)) →
    Continues x s₀ (·.memberOf allowCall) (·.access allowCall)
      (x.words b false (bareAt x.o t place ++ more)) t (x.words false false more)
  loops : Repeats t.data.precedence → ∀ {s₀ noIn place} {b : Bool} {more},
    (noIn = true → place.noIn = true ∧ isInOperation t.data = false) →
    Stops (t.data.precedence + 1) noIn (x.words false false more) →
    Continues x s₀ (readerAt noIn t.data.precedence) (turnAt noIn t.data.precedence)
      (x.words b false (bareAt x.o t place ++ more)) t (x.words false false more)
  once : t.data.precedence < Precedence.member → ¬ Repeats t.data.precedence →
    ∀ {s₀ level noIn place} {b : Bool} {more}, IsPlaceLevel level → level ≤ t.data.precedence →
    (noIn = true → place.noIn = true) → Stops level noIn (x.words false false more) →
    Yields x s₀ (readerAt noIn t.data.precedence) (x.words b false (bareAt x.o t place ++ more))
      (x.Redraws t) (x.words false false more)

theorem isPlaceLevel_next (h : Repeats level) : IsPlaceLevel (level + 1) := by
  change level = 1 ∨ 4 ≤ level ∧ level ≤ 13 at h
  change 1 ≤ level + 1 ∧ level + 1 ≤ 16 ∧ level + 1 ≠ 3
  omega

/-- The repetition of accesses ends at a token that begins none. Behind a callee of `new` a
parenthesis begins none. -/
theorem access_ends {s : State} (g : Grammar) (t : Tree) (hdot : s.current.tag ≠ .dot)
    (hbracket : s.current.tag ≠ .leftBracket)
    (hparen : allowCall = true → s.current.tag ≠ .leftParen) :
    g.access allowCall t s = .ok (.done t, s) := by
  rw [access, bind_ok (rfl : (get : Reading State) s = .ok (s, s))]
  cases htag : s.current.tag
  case dot => exact absurd htag hdot
  case leftBracket => exact absurd htag hbracket
  case leftParen =>
    cases allowCall with
    | false => rfl
    | true => exact absurd htag (hparen rfl)
  all_goals rfl

theorem Continues.member (h : Continues x s₀ (·.memberOf allowCall) (·.access allowCall) ws t rest)
    (hs : Stops Precedence.member noIn rest) : Yields x s₀ (·.memberOf allowCall) ws (x.Redraws t)
      rest := by
  refine h.yields fun n s t' hfed => ?_
  obtain ⟨hdot, hbracket, hparen⟩ := hfed.no_access hs
  exact access_ends _ t' hdot hbracket fun _ => hparen

/-! ## Primary expressions -/

/-- An operand that is neither a function nor made by `new` is a primary expression. -/
theorem continues_primary (h : Yields x s₀ (·.primary) ws (x.Redraws t) rest)
    (hw : ∀ w ∈ ws.head?, w.sym.tag ≠ .kwNew ∧ w.sym.tag ≠ .kwFunction) :
    Continues x s₀ (·.memberOf allowCall) (·.access allowCall) ws t rest := by
  refine ⟨h.shorter, fun n s Q hn hs hQ => ensures_get ?_⟩
  have hnew : s.current.tag ≠ .kwNew := hs.head_ne (fun w hw' => (hw w hw').1) (by decide)
  have hfunction : s.current.tag ≠ .kwFunction := hs.head_ne (fun w hw' => (hw w hw').2) (by decide)
  dsimp only
  rw [if_neg (by simpa using hnew), if_neg (by simpa using hfunction)]
  refine (h.ensures n s hn hs).bind fun t' s' ht => ?_
  have hfuel := h.shorter
  exact hQ t' s' _ ht.1 ht.2 (by rw [bound_nested]; omega)

/-- An expression in parentheses. -/
theorem parens_primary {xs : List WriterStep} {P : Tree → Prop}
    (h : Yields x s₀ (readerAt false Precedence.comma)
      (x.words false false (xs ++ .token ")" :: more)) P (x.words false false (.token ")" :: more))) :
    Yields x s₀ (·.primary) (x.words b false (.token "(" :: (xs ++ .token ")" :: more))) P
      (x.words false false more) := by
  have hlt := h.shorter
  rw [x.words_text ")" .rightParen (by decide) rfl] at h hlt
  rw [x.words_text "(" .leftParen (by decide) rfl]
  rw [List.length_cons] at hlt
  refine ⟨by rw [List.length_cons]; omega, fun n s hn hs => ensures_get ?_⟩
  have htag : s.current.tag = .leftParen := hs.tag_eq (by simp)
  rw [if_neg (by simp [Token.isSlash, htag])]
  refine ensures_get ?_
  simp only [htag]
  refine hs.advance (by simp) fun s₁ hs₁ => ?_
  refine (h.inner (nests_expression false) n).bind hn hs₁ fun t s₂ ht hs₂ => ?_
  exact hs₂.expect rfl (by decide) fun s₃ hs₃ => ensures_pure ⟨ht, hs₃⟩

/-! ## From the own level to the place -/

theorem exprAt_append {o : RenderOptions} (t : Tree) (place : Place) (more : List WriterStep) :
    exprAt o t place ++ more = if needsParens t place
      then .token "(" :: (bareAt o t place.inner ++ .token ")" :: more)
      else bareAt o t place ++ more := by
  rw [exprAt_eq]
  split
  · simp
  · rfl

theorem precedence_pos (n : Node) : 1 ≤ n.precedence := by
  unfold Node.precedence
  split
  case h_5 | h_6 => split <;> decide
  case h_11 =>
    cases hl : n.tag.binaryPrecedence? with
    | none => decide
    | some level => exact Nat.le_trans (by decide) (binaryLevel_bounds hl).1
  all_goals decide

/-- Expressions that bind more tightly than the operators in front of operands begin with none. -/
theorem unprefixed_bare (ht : Formed x.dialect .expr t)
    (hp : Precedence.postfixStep ≤ t.data.precedence) (place : Place) :
    Unprefixed (x.words b false (bareAt x.o t place ++ more)) := by
  obtain ⟨w, ws, hbegin, hwords⟩ := (Formed.bareHeads t ht place).words x.o.compact more
  have hoperand := hbegin.tight (by simpa using hp)
  have hdisjoint : ∀ tag ∈ operandTags, tag ∉ prefixTags := by decide
  rw [Tape.words, hwords]
  rintro w' ⟨rfl⟩
  exact hdisjoint _ hoperand

namespace BareYields
variable (h : BareYields x t) (ht : Formed x.dialect .expr t)
include h ht

/-- Without parentheses, at the levels below its own. -/
theorem below (hlevel : IsPlaceLevel level) (hle : level ≤ t.data.precedence)
    (hnoIn : noIn = true → place.noIn = true ∧ isInOperation t.data = false)
    (hs : Stops level noIn (x.words false false more)) :
    Yields x s₀ (readerAt noIn level) (x.words b false (bareAt x.o t place ++ more)) (x.Redraws t)
      (x.words false false more) := by
  obtain ⟨hlow, hmember, hthree⟩ := hlevel
  have hunprefixed : Precedence.unary < t.data.precedence →
      Unprefixed (x.words b false (bareAt x.o t place ++ more)) := fun hlt =>
    unprefixed_bare ht hlt place
  by_cases hp : Precedence.member ≤ t.data.precedence
  · have hyields : Yields x s₀ (readerAt noIn Precedence.member)
        (x.words b false (bareAt x.o t place ++ more)) (x.Redraws t) (x.words false false more) :=
      (h.member hp noIn (.inl rfl) fun _ _ => hs.mono hmember).member (hs.mono hmember)
    exact hyields.below hmember hs hlow (Nat.le_refl _)
      fun _ _ => hunprefixed (Nat.lt_of_lt_of_le (by decide) hp)
  · have hlt : t.data.precedence < Precedence.member := Nat.lt_of_not_le hp
    suffices hown : Yields x s₀ (readerAt noIn t.data.precedence)
        (x.words b false (bareAt x.o t place ++ more)) (x.Redraws t) (x.words false false more) from
      hown.below hle hs hlow (Nat.le_of_lt hlt) fun _ hu => hunprefixed hu
    by_cases hrep : Repeats t.data.precedence
    · exact (h.loops hrep hnoIn (hs.mono (Nat.le_succ_of_le hle))).yields
        fun n s t' hfed => turn_done hrep hfed (hs.mono hle) _
    · exact h.once hlt hrep ⟨hlow, hmember, hthree⟩ hle (fun h => (hnoIn h).1) hs

/-- In parentheses, with accesses behind them. -/
theorem parens (place : Place) : Continues x s₀ (·.memberOf allowCall) (·.access allowCall)
    (x.words b false (.token "(" :: (bareAt x.o t place.inner ++ .token ")" :: more))) t
    (x.words false false more) := by
  have hinner : Yields x s₀ (readerAt false Precedence.comma)
      (x.words false false (bareAt x.o t place.inner ++ .token ")" :: more)) (x.Redraws t)
      (x.words false false (.token ")" :: more)) := by
    refine h.below ht ⟨Nat.le_refl _, by decide, by decide⟩ (precedence_pos t.data)
      (fun h => nomatch h) ?_
    rw [x.words_text ")" .rightParen (by decide) rfl]
    exact stops_closer (by decide)
  refine continues_primary (parens_primary hinner) ?_
  rw [x.words_text "(" .leftParen (by decide) rfl]
  rintro w ⟨rfl⟩
  simp

/-- In parentheses, at every level. -/
theorem parens_at (place : Place) (hlevel : IsPlaceLevel level)
    (hs : Stops level noIn (x.words false false more)) : Yields x s₀ (readerAt noIn level)
      (x.words b false (.token "(" :: (bareAt x.o t place.inner ++ .token ")" :: more)))
      (x.Redraws t) (x.words false false more) := by
  obtain ⟨hlow, hmember, -⟩ := hlevel
  have hyields : Yields x s₀ (readerAt noIn Precedence.member)
      (x.words b false (.token "(" :: (bareAt x.o t place.inner ++ .token ")" :: more)))
      (x.Redraws t) (x.words false false more) := (h.parens ht place).member (hs.mono hmember)
  refine hyields.below hmember hs hlow (Nat.le_refl _) fun _ _ => ?_
  rw [x.words_text "(" .leftParen (by decide) rfl]
  rintro w ⟨rfl⟩
  simp [prefixTags]

theorem exprYields : ExprYields x t where
  operand _ _ place _ more _ huse hlevel hnoIn hs := by
    rw [exprAt_append]
    split
    · exact h.parens_at ht place hlevel hs
    · next hparens =>
      have hfits := fits_of_bare (by simpa using hparens)
      exact h.below ht hlevel (hfits.operand _ huse)
        (fun h => ⟨hnoIn h, hfits.noIn (hnoIn h)⟩) hs
  loops _ _ place _ more level huse hrep hnoIn hs := by
    have hnext := isPlaceLevel_next hrep
    rw [exprAt_append]
    split
    · exact .of_yields (h.parens_at ht place hnext hs) (readerAt_repeats hrep)
    · next hparens =>
      have hfits := fits_of_bare (by simpa using hparens)
      have hfree : ∀ h, _ := fun h => And.intro (hnoIn h) (hfits.noIn (hnoIn h))
      rcases Nat.eq_or_lt_of_le (hfits.operand _ huse) with rfl | hlt
      · exact h.loops hrep hfree hs
      · exact .of_yields (h.below ht hnext hlt hfree hs) (readerAt_repeats hrep)
  member _ allowCall place _ more huse hcall := by
    rw [exprAt_append]
    split
    · exact h.parens ht place
    · next hparens =>
      have hfits := fits_of_bare (by simpa using hparens)
      refine h.member (hfits.member huse).1 false ?_ ?_
      · rcases huse with hobject | hcallee
        · exact hcall hobject
        · exact .inr (hfits.callee hcallee)
      · intro level hlevel
        rcases huse with huse | huse <;> simp [huse] at hlevel

end BareYields

end
end ScriptPress.Grammar
