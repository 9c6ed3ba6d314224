import ScriptPress.Proofs.Rereading.Levels

/-! # Lists of items that are read again

A repetition collects items when each of its turns takes the next one. Items stand with commas
between them, or one behind another up to a token that ends them.
-/
namespace ScriptPress.Grammar
open Lexer Render

/-! ## Words of steps -/

section
variable {x : Tape} {b : Lead} {more : List WriterStep} {tag : Tag} {datum : Option Tag}

/-- Instructions with a token of their own have more words than what comes behind them. -/
theorem Tape.shorter {P : Sym → Prop} {xs : List WriterStep} (x : Tape)
    (h : Opens x.dialect P xs) (lead lead' : Lead) (more : List WriterStep) :
    (x.words lead' false more).length < (x.words lead false (xs ++ more)).length := by
  obtain ⟨w, lead'', ws, hwords, -, hle⟩ := h.words_head x.o.compact lead more
  rw [words, words, hwords]
  exact Nat.lt_succ_of_le (hle lead')

theorem Tape.words_space (x : Tape) (lead : Lead) (owes : Bool) (more : List WriterStep) :
    x.words lead owes (.space :: more) = x.words lead owes more := rfl

/-- A sign in front of other words. -/
theorem Tape.words_sign (h : IsSign x.dialect tag datum) (more : List WriterStep) :
    x.words b false (.token (signText tag datum) :: more)
      = ⟨⟨tag, datum, none⟩, b⟩ :: x.words false false more := ScriptPress.words_sign h more

/-- A sign or keyword of the dialect, as it is spelled. -/
theorem Tape.words_spelled (x : Tape) {b : Lead} (text : String) {tag : Tag}
    (h : IsSign x.dialect tag none) (ht : signText tag none = text) (more : List WriterStep) :
    x.words b false (.token text :: more) = ⟨⟨tag, none, none⟩, b⟩ :: x.words false false more := by
  rw [← ht]
  exact words_sign h more

/-- A sign or keyword of every dialect, as it is spelled. -/
theorem Tape.words_text (x : Tape) {b : Lead} (text : String) (tag : Tag) (h : tag ∈ everywhere)
    (ht : signText tag none = text) (more : List WriterStep) :
    x.words b false (.token text :: more) = ⟨⟨tag, none, none⟩, b⟩ :: x.words false false more :=
  x.words_spelled text (isSign_everywhere h) ht more

theorem Tape.words_lexeme {text : String} {s : Sym} (h : IsLexeme x.dialect text.toList s)
    (more : List WriterStep) :
    x.words b false (.token text :: more) = ⟨s, b⟩ :: x.words false false more := by
  rw [words, ScriptPress.words_token, classify_of h]
  rfl

theorem Tape.words_number {text : String} {s : Sym} (h : IsLexeme x.dialect text.toList s)
    (more : List WriterStep) :
    x.words b false (.number text :: more) = ⟨s, b⟩ :: x.words false false more := by
  rw [words, ScriptPress.words_number, classify_of h]
  rfl

end

/-! ## Collections -/

section
variable {α β : Type} {x : Tape} {s₀ : State} {n : Nat} {I I' J : List α → Prop}
  {step : List α → Reading (Turn (List α) (List α))} {ws mid rest : List Word}

/-- A repetition goes on from items of one sort to items of another. -/
def Collects (x : Tape) (s₀ : State) (n : Nat) (step : List α → Reading (Turn (List α) (List α)))
    (ws : List Word) (I J : List α → Prop) (rest : List Word) : Prop :=
  ∀ s fuel items, ws.length < n → ws.length < fuel → I items → Fed x s₀ ws s →
    Ensures True (iterate step fuel items) s fun items' s' => J items' ∧ Fed x s₀ rest s'

namespace Collects

theorem finish (hstep : ∀ s items, ws.length < n → I items → Fed x s₀ ws s →
      Ensures True (step items) s fun turn s' =>
        ∃ items', turn = .done items' ∧ J items' ∧ Fed x s₀ rest s') :
    Collects x s₀ n step ws I J rest := by
  intro s fuel items hn hfuel hitems hs
  cases fuel with
  | zero => omega
  | succ fuel =>
    rw [iterate]
    refine (hstep s items hn hitems hs).bind fun turn s' hturn => ?_
    obtain ⟨items', rfl, hall⟩ := hturn
    exact ensures_pure hall

theorem turn (h : Collects x s₀ n step mid I' J rest) (hlt : mid.length < ws.length)
    (hstep : ∀ s items, ws.length < n → I items → Fed x s₀ ws s →
      Ensures True (step items) s fun turn s' =>
        ∃ items', turn = .again items' ∧ I' items' ∧ Fed x s₀ mid s') :
    Collects x s₀ n step ws I J rest := by
  intro s fuel items hn hfuel hitems hs
  cases fuel with
  | zero => omega
  | succ fuel =>
    rw [iterate]
    refine (hstep s items hn hitems hs).bind fun turn s' hturn => ?_
    obtain ⟨items', rfl, hdone, hmid⟩ := hturn
    exact h s' fuel items' (by omega) (by omega) hdone hmid

/-- All turns of a repetition. -/
theorem repeatTurns (h : Collects x s₀ n step ws I J rest) {items : List α} {s : State}
    (hn : ws.length < n) (hitems : I items) (hs : Fed x s₀ ws s) :
    Ensures True ((nested n).repeatTurns step items) s fun items' s' =>
      J items' ∧ Fed x s₀ rest s' := by
  rw [Grammar.repeatTurns, bound_nested]
  exact h s (n + 1) items hn (Nat.lt_succ_of_lt hn) hitems hs

end Collects

theorem forall₂_snoc {R : β → α → Prop} {bs : List β} {as : List α} {b : β} {a : α}
    (h : List.Forall₂ R bs as) (hab : R b a) : List.Forall₂ R (bs ++ [b]) (as ++ [a]) :=
  List.rel_append h (.cons hab .nil)

/-! ## Items between commas -/

variable {R : β → α → Prop} {item : Reading α} {done bs : List β} {more zs : List WriterStep}

/-- What stands behind an item: a comma or what stands behind all of them. -/
def Follows (more zs : List WriterStep) : Prop := zs = more ∨ ∃ ys, zs = .token "," :: ys

theorem collects_separated {st : β → List WriterStep} (hne : bs ≠ [])
    (hitem : ∀ b ∈ bs, ∀ zs, Follows more zs → Takes x s₀ n item
      (x.words false false (st b ++ zs)) (R b) (x.words false false zs))
    (hmore : ∀ w ∈ (x.words false false more).head?, w.sym.tag ≠ .comma) :
    Collects x s₀ n (separatedTurn item) (x.words false false (separated (bs.map st) ++ more))
      (List.Forall₂ R done) (List.Forall₂ R (done ++ bs)) (x.words false false more) := by
  induction bs generalizing done with
  | nil => exact absurd rfl hne
  | cons b bs ih =>
    cases bs with
    | nil =>
      have hb := hitem b (by simp) more (.inl rfl)
      refine .finish fun s items hn hitems hs => ?_
      refine hb.bind hn hs fun a s₁ ha hs₁ => ?_
      have hno : s₁.current.tag ≠ .comma := hs₁.head_ne hmore (by decide)
      exact ensures_accept_none hno (ensures_pure ⟨_, rfl, forall₂_snoc hitems ha, hs₁⟩)
    | cons b' bs =>
      have hrest := @ih (done ++ [b]) (by simp) fun c hc => hitem c (List.mem_cons_of_mem b hc)
      have hb := hitem b (by simp) (.token "," :: .space :: (separated ((b' :: bs).map st) ++ more))
        (.inr ⟨_, rfl⟩)
      have hsteps : separated ((b :: b' :: bs).map st) ++ more
          = st b ++ (.token "," :: .space :: (separated ((b' :: bs).map st) ++ more)) := by
        simp [separated]
      have hlt := hb.shorter
      rw [x.words_text "," .comma (by decide) rfl] at hb hlt
      rw [hsteps, List.append_cons done b]
      refine hrest.turn (Nat.lt_trans (Nat.lt_succ_self _) hlt) fun s items hn hitems hs => ?_
      refine hb.bind hn hs fun a s₁ ha hs₁ => ?_
      exact hs₁.accept rfl (by decide) fun s₂ hs₂ =>
        ensures_pure ⟨_, rfl, forall₂_snoc hitems ha, hs₂⟩

end

/-! ## Items up to a token -/

section
variable {α β : Type} {x : Tape} {s₀ : State} {n : Nat} {ws : List Word} {s : State}
  {P : Sym → Prop} {R : β → α → Prop} {I : List β → List α → Prop} {item : Reading α}
  {st : β → List WriterStep} {done bs : List β} {more : List WriterStep} {ends : Token → Bool}
  {closes : Tag → Bool}

/-- The current token has the tag of the first word, or it is the slash of a regular expression. -/
theorem Fed.tag_of_head {w : Word} (h : Fed x s₀ (w :: ws) s) {closes : Tag → Bool}
    (hw : closes w.sym.tag = false)
    (hslash : closes .regExp = false → closes .div = false ∧ closes .assign = false) :
    closes s.current.tag = false := by
  by_cases hr : w.sym.tag = .regExp
  · rw [hr] at hw
    replace hslash := hslash hw
    have hs := h.slash hr
    rw [Token.isSlash] at hs
    rcases Bool.or_eq_true _ _ ▸ hs with hs | hs
    · rw [eq_of_beq hs]
      exact hslash.1
    · rw [Bool.and_eq_true] at hs
      rw [eq_of_beq hs.1]
      exact hslash.2
  · rwa [h.tag_eq hr]

variable (closes) in
/-- Items that are read one by one, each in front of what can stand behind it, until a token ends
them. What was read before goes along with the items that are read. -/
theorem collects_until
    (hI : ∀ {done items b a}, I done items → R b a → I (done ++ [b]) (items ++ [a]))
    (hitem : ∀ b ∈ bs, ∀ zs, Resumes x.dialect P zs → Takes x s₀ n item
      (x.words true false (st b ++ zs)) (R b) (x.words true false zs))
    (hopens : ∀ b ∈ bs, Opens x.dialect (fun s => P s ∧ closes s.tag = false) (st b))
    (hmore : Resumes x.dialect P more) (hends : ∀ t, ends t = closes t.tag)
    (hslash : closes .regExp = false → closes .div = false ∧ closes .assign = false)
    (hstop : ∀ s, Fed x s₀ (x.words true false more) s → closes s.current.tag = true) :
    Collects x s₀ n (untilTurn ends item) (x.words true false (bs.flatMap st ++ more)) (I done)
      (I (done ++ bs)) (x.words true false more) := by
  induction bs generalizing done with
  | nil =>
    refine .finish fun s items _ hitems hs => ensures_get ?_
    rw [if_pos (by rw [hends, hstop s hs]), List.append_nil]
    exact ensures_pure ⟨items, rfl, hitems, hs⟩
  | cons b bs ih =>
    have hrest := @ih (done ++ [b]) (fun c hc => hitem c (List.mem_cons_of_mem b hc))
      fun c hc => hopens c (List.mem_cons_of_mem b hc)
    have hresumes : Resumes x.dialect P (bs.flatMap st ++ more) := by
      cases bs with
      | nil => exact hmore
      | cons c bs =>
        rw [List.flatMap_cons, List.append_assoc]
        exact .of_opens ((hopens c (by simp)).mono fun _ h => h.1) _
    have hb := hitem b (by simp) _ hresumes
    rw [List.append_cons done b, List.flatMap_cons, List.append_assoc]
    refine hrest.turn hb.shorter fun s items hn hitems hs => ensures_get ?_
    obtain ⟨w, lead, ws, hwords, ⟨-, hgoes⟩, -⟩ := (hopens b (by simp)).words_head x.o.compact true
      (bs.flatMap st ++ more)
    have hfaces := hs
    rw [Tape.words, hwords] at hfaces
    rw [if_neg (by rw [hends, hfaces.tag_of_head hgoes hslash]; exact Bool.false_ne_true)]
    refine hb.bind hn hs fun a s₁ ha hs₁ => ?_
    exact ensures_pure ⟨_, rfl, hI hitems ha, hs₁⟩

end
end ScriptPress.Grammar
