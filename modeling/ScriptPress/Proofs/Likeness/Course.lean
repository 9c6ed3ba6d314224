import ScriptPress.Proofs.Insertion.Course
import ScriptPress.Proofs.Removal.Serving
import ScriptPress.Proofs.Settings.Course
import ScriptPress.Proofs.Shape.Nodes

/-! # Readings of like texts

Rules for a reading of a text and the same reading of another text whose lexer yields like tokens
without comments. All the tokens of the first text are given, so that it is known of each token that
is taken that the other reading comes to one like it. Which tokens these are shows at the end of a
reading only, so that a rule looks back from the end to the beginning.
-/
namespace ScriptPress

namespace Token
variable {t t' : Token}

theorem Like.refl (t : Token) : t.Like t := ⟨rfl, fun _ => rfl⟩

theorem shown_of_sym (h : t'.sym = t.sym) : t'.shown = t.shown := by
  have htext : t'.text = t.text := congrArg Sym.text h
  rw [shown, shown, tag_of_sym h, datum_of_sym h, htext]

/-- A line break counts at the end of a statement, where the end of the input does too. -/
theorem Like.ends (h : t.Like t') :
    (t'.tag == .rightBrace || t'.tag == .endOfInput || t'.newlineBefore)
      = (t.tag == .rightBrace || t.tag == .endOfInput || t.newlineBefore) := by
  by_cases hend : t.tag = .endOfInput
  · simp [tag_of_sym h.sym, hend]
  · rw [tag_of_sym h.sym, h.lined hend]

/-- No token on a line stands at the end of the input. -/
theorem Like.same {tag : Tag} (h : t.Like t') (htag : tag ≠ .endOfInput) :
    (t'.tag == tag && !t'.newlineBefore) = (t.tag == tag && !t.newlineBefore) := by
  by_cases hend : t.tag = .endOfInput
  · simp [tag_of_sym h.sym, hend, beq_eq_false_iff_ne.mpr htag.symm]
  · rw [tag_of_sym h.sym, h.lined hend]

end Token

namespace Lexer

variable {lx lx' : Lexer} {t : Token} {cs : List Comment} {ts : List (Token × List Comment)}

theorem Serves.finished (h : Serves lx t cs ts) (hend : t.tag = .endOfInput) : ts = [(t, cs)] := by
  cases h with
  | finish => rfl
  | take hne => exact absurd hend hne
  | again hslash => simp [Token.isSlash, hend] at hslash

/-- A token that is served as it is. -/
theorem Serves.taken (h : Serves lx t cs ts) (hend : t.tag ≠ .endOfInput)
    (hhead : ∃ p ∈ ts.head?, p.1.tag = t.tag) :
    ∃ more, ts = (t, cs) :: more ∧ lx.Yields more := by
  cases h with
  | finish htag => exact absurd htag hend
  | take _ hnext hmore => exact ⟨_, rfl, _, _, hnext, hmore⟩
  | again hslash hrescan hmore =>
    obtain ⟨more, rfl, -⟩ := hmore.pattern (rescan_tag hrescan)
    obtain ⟨p, hp, htag⟩ := hhead
    obtain rfl : _ = p := by simpa using hp
    rw [rescan_tag hrescan] at htag
    simp [Token.isSlash, ← htag] at hslash

/-- A slash that is served as a regular expression. -/
theorem Serves.reread (h : Serves lx t cs ts) (hslash : t.isSlash = true)
    (hhead : ∃ p ∈ ts.head?, p.1.tag = .regExp) :
    ∃ t' lx', lx.rescan t = (.ok t', lx') ∧ Serves lx' t' cs ts := by
  have htaken : ∀ more : List (Token × List Comment), ts ≠ (t, cs) :: more := by
    rintro more rfl
    obtain ⟨p, hp, htag⟩ := hhead
    obtain rfl : _ = p := by simpa using hp
    simp [Token.isSlash, show t.tag = .regExp from htag] at hslash
  cases h with
  | finish => exact absurd rfl (htaken _)
  | take => exact absurd rfl (htaken _)
  | again _ hrescan hmore => exact ⟨_, _, hrescan, hmore⟩

end Lexer

namespace Grammar
open Lexer (Matched)

/-- A state of the reading of another text. -/
structure State.Like (s s' : State) : Prop where
  sym : s'.current.sym = s.current.sym
  current : 1 < s.taken.length → s.current.Like s'.current
  dialect : s'.lexer.dialect = s.lexer.dialect
  scope : s'.scope = s.scope
  targets : s'.targets = s.targets
  labels : s'.labels = s.labels
  pendingLabels : s'.pendingLabels = s.pendingLabels
  nextId : s'.nextId = s.nextId

/-- Of all tokens of a text, those that are still to be taken, and their like of another text. -/
def Ahead (all : List Token) (s s' : State) : Prop :=
  ∃ lined cs ts cs' ts', (1 < s.taken.length → lined = true)
    ∧ s.taken.reverse ++ ts.map Prod.fst = all ∧ s.lexer.Serves s.current cs ts
    ∧ s'.lexer.Serves s'.current cs' ts' ∧ Matched lined (ts.map Prod.fst) ts' ∧ s'.heard = []

/-- A state at which some of all tokens are still to be taken. -/
def Unfinished (all : List Token) (s : State) : Prop :=
  ∃ more, more ≠ [] ∧ s.taken.reverse ++ more = all

/-- A state behind what stands for a token before the first one, or behind the first one. -/
def Begun (first : Bool) (s : State) : Prop := first.toNat < s.taken.length

/-- From a state and its like, a reading that ends well with tokens left goes along with the reading
of the other text: they end in states that are alike, with results that look alike. -/
def MirrorsAt {α γ : Type} (all : List Token) (first : Bool) (φ : α → γ) (s s' : State)
    (m m' : Reading α) : Prop :=
  ∀ a t, m s = .ok (a, t) → s.taken <:+ t.taken ∧ Begun first t
    ∧ (Unfinished all t → Ahead all s s' →
      ∃ a' t', m' s' = .ok (a', t') ∧ φ a' = φ a ∧ t.Like t' ∧ Ahead all t t')

/-- Readings of two texts that go along with each other, from a place before or behind the first
token to another one. -/
def Mirrors {α γ : Type} (all : List Token) (first : Bool) (m m' : Reading α) (φ : α → γ)
    (first' : Bool) : Prop :=
  ∀ s s', Begun first s → s.Like s' → MirrorsAt all first' φ s s' m m'

theorem State.Like.refl (s : State) : s.Like s :=
  ⟨rfl, fun _ => .refl _, rfl, rfl, rfl, rfl, rfl, rfl⟩

section
variable {α β γ δ : Type} {all : List Token} {first b c d : Bool} {φ : α → γ} {ψ : β → δ}
  {m m' : Reading α} {f f' : α → Reading β} {s s' t t' : State}

theorem Unfinished.before (h : Unfinished all t) (hgrow : s.taken <:+ t.taken) :
    Unfinished all s := by
  obtain ⟨more, hne, hall⟩ := h
  obtain ⟨taken, htaken⟩ := hgrow
  refine ⟨taken.reverse ++ more, by simp [hne], ?_⟩
  rw [← hall, ← htaken, List.reverse_append, List.append_assoc]

/-- Some token was taken, whichever it is. -/
theorem Begun.anywhere (h : Begun true s) : Begun b s := by
  cases b with
  | true => exact h
  | false => exact Nat.lt_of_succ_lt h

theorem Begun.started (h : Begun b s) : Begun false s := by
  cases b with
  | true => exact h.anywhere
  | false => exact h

/-! ## Rules for the shape of a reading -/

theorem MirrorsAt.bind (hm : MirrorsAt all b φ s s' m m')
    (hf : ∀ a a', φ a' = φ a → Mirrors all b (f a) (f' a') ψ c) :
    MirrorsAt all c ψ s s' (m >>= f) (m' >>= f') := by
  intro r u hrun
  obtain ⟨a, t, hmid, hend⟩ := bind_iff.mp hrun
  obtain ⟨hgrow, hb, hgo⟩ := hm a t hmid
  obtain ⟨hgrow', hc, -⟩ := hf a a rfl t t hb (.refl t) r u hend
  refine ⟨hgrow.trans hgrow', hc, fun hunfinished hahead => ?_⟩
  obtain ⟨a', t', hmid', ha, hlike, hahead'⟩ := hgo (hunfinished.before hgrow') hahead
  obtain ⟨-, -, hgo'⟩ := hf a a' ha t t' hb hlike r u hend
  obtain ⟨r', u', hend', hr, hlike', hahead''⟩ := hgo' hunfinished hahead'
  exact ⟨r', u', (bind_ok hmid').trans hend', hr, hlike', hahead''⟩

theorem Mirrors.bind (hm : Mirrors all b m m' φ c)
    (hf : ∀ a a', φ a' = φ a → Mirrors all c (f a) (f' a') ψ d) :
    Mirrors all b (m >>= f) (m' >>= f') ψ d :=
  fun s s' hb hlike => (hm s s' hb hlike).bind hf

theorem mirrors_pure {a a' : α} (h : φ a' = φ a) : Mirrors all b (pure a) (pure a') φ b := by
  intro s s' hb hlike r t hrun
  obtain ⟨rfl, rfl⟩ := Prod.mk.inj (Except.ok.inj hrun)
  exact ⟨List.suffix_rfl, hb, fun _ hahead => ⟨a', s', rfl, h, hlike, hahead⟩⟩

/-- A reading that takes a token may do so from anywhere and lead anywhere. -/
theorem Mirrors.weaken (h : ∀ b, Mirrors all b m m' φ true) : Mirrors all b m m' φ c :=
  fun s s' hb hlike a t hrun => (h b s s' hb hlike a t hrun).imp_right fun h => ⟨h.1.anywhere, h.2⟩

/-- A reading that ends at a problem from a state. -/
theorem mirrorsAt_fails (h : ∃ d, m s = .error d) : MirrorsAt all c φ s s' m m' := by
  intro a t hrun
  obtain ⟨d, hd⟩ := h
  rw [hd] at hrun
  cases hrun

/-- A reading that always ends at a problem. -/
theorem mirrors_fails (h : ∀ s, ∃ d, m s = .error d) : Mirrors all b m m' φ c :=
  fun s _ _ _ => mirrorsAt_fails (h s)

theorem mirrors_fail (p : Problem) : Mirrors all b (fail p) m' φ c :=
  mirrors_fails fun _ => ⟨_, rfl⟩

theorem mirrors_failAt (line : Nat) (p : Problem) : Mirrors all b (failAt line p) m' φ c :=
  mirrors_fails fun _ => ⟨_, rfl⟩

theorem unexpected_fails (s : State) : ∃ d, (unexpected : Reading α) s = .error d := by
  cases hrun : (unexpected : Reading α) s with
  | error d => exact ⟨d, rfl⟩
  | ok r => exact (ensures_iff.mp (ensures_unexpected (Q := fun _ _ => False)) r.1 r.2 hrun).elim

theorem mirrors_unexpected : Mirrors all b unexpected m' φ c := mirrors_fails unexpected_fails

/-- A question about the state. -/
theorem mirrors_get {f f' : State → Reading β}
    (hf : ∀ s s', Begun b s → s.Like s' → MirrorsAt all c ψ s s' (f s) (f' s')) :
    Mirrors all b (get >>= f) (get >>= f') ψ c :=
  fun s s' hb hlike => hf s s' hb hlike

theorem Mirrors.ite {e e' : Bool} {yes no yes' no' : Reading β} (h : e' = e)
    (hyes : e = true → Mirrors all b yes yes' ψ c) (hno : e = false → Mirrors all b no no' ψ c) :
    Mirrors all b (if e = true then yes else no) (if e' = true then yes' else no') ψ c := by
  subst h
  cases e' with
  | true => exact hyes rfl
  | false => exact hno rfl

theorem mirrors_again {a a' : α} (h : φ a' = φ a) :
    Mirrors all b (pure (Turn.again a)) (pure (Turn.again a')) (Turn.map φ ψ) b :=
  mirrors_pure (congrArg Turn.again h)

theorem mirrors_done {r r' : β} (h : ψ r' = ψ r) :
    Mirrors all b (pure (Turn.done r)) (pure (Turn.done r')) (Turn.map φ ψ) b :=
  mirrors_pure (congrArg Turn.done h)

theorem mirrors_iterate {step step' : α → Reading (Turn α β)}
    (h : ∀ a a', φ a' = φ a → Mirrors all b (step a) (step' a') (Turn.map φ ψ) b) (fuel : Nat)
    {a a' : α} (ha : φ a' = φ a) :
    Mirrors all b (iterate step fuel a) (iterate step' fuel a') ψ b := by
  induction fuel generalizing a a' with
  | zero => exact mirrors_unexpected
  | succ fuel ih =>
    refine (h a a' ha).bind fun turn turn' hturn => ?_
    cases turn with
    | again a =>
      cases turn' with
      | again a' => exact ih (Turn.again.inj hturn)
      | done r' => cases hturn
    | done r =>
      cases turn' with
      | again a' => cases hturn
      | done r' => exact mirrors_pure (Turn.done.inj hturn)

/-! ## Steps that do not look at the text -/

/-- What the tokens still to be taken depend on. -/
def State.spot (s : State) : Lexer × Token × List Token × List String :=
  (s.lexer, s.current, s.taken, s.heard)

theorem Ahead.congr {u u' : State} (h : Ahead all s s') (hs : u.spot = s.spot)
    (hs' : u'.spot = s'.spot) : Ahead all u u' := by
  simp only [State.spot, Prod.mk.injEq] at hs hs'
  obtain ⟨hlexer, hcurrent, htaken, -⟩ := hs
  obtain ⟨hlexer', hcurrent', -, hheard'⟩ := hs'
  unfold Ahead
  rwa [hlexer, hcurrent, htaken, hlexer', hcurrent', hheard']

theorem mirrors_modify {change change' : State → State} {φ : Unit → γ}
    (hlike : ∀ s s', s.Like s' → (change s).Like (change' s'))
    (hspot : ∀ s, (change s).spot = s.spot) (hspot' : ∀ s, (change' s).spot = s.spot) :
    Mirrors all b (modify change) (modify change') φ b := by
  intro s s' hb h r t hrun
  obtain ⟨rfl, rfl⟩ := Prod.mk.inj (Except.ok.inj hrun)
  have htaken : (change s).taken = s.taken := congrArg (fun p => p.2.2.1) (hspot s)
  refine ⟨htaken ▸ List.suffix_rfl, by rwa [Begun, htaken], fun _ hahead => ?_⟩
  exact ⟨(), change' s', rfl, rfl, hlike s s' h, hahead.congr (hspot s) (hspot' s')⟩

/-- A reading in a state that was changed for it, where neither the change nor the one back has to
do with the text. -/
theorem mirrors_within (enter enter' : State → State) (leave leave' : State → State → State)
    (hm : Mirrors all b m m' φ c)
    (hf : ∀ a a', φ a' = φ a → Mirrors all c (f a) (f' a') ψ d)
    (hin : ∀ s s', s.Like s' → (enter s).Like (enter' s'))
    (hout : ∀ s s' t t', s.Like s' → t.Like t' → (leave s t).Like (leave' s' t'))
    (hspot : ∀ s t, (enter s).spot = s.spot ∧ (leave s t).spot = t.spot)
    (hspot' : ∀ s t, (enter' s).spot = s.spot ∧ (leave' s t).spot = t.spot) :
    Mirrors all b (within enter leave m f) (within enter' leave' m' f') ψ d := by
  have htaken : ∀ {u v : State}, u.spot = v.spot → u.taken = v.taken :=
    fun h => congrArg (fun p => p.2.2.1) h
  intro s s' hb hlike r u hrun
  obtain ⟨a, t, hmid, hend⟩ := within_iff.mp hrun
  have henter : Begun b (enter s) := by rwa [Begun, htaken (hspot s t).1]
  obtain ⟨hgrow, hc, hgo⟩ := hm _ _ henter (hin s s' hlike) a t hmid
  have hleave : Begun c (leave s t) := by rwa [Begun, htaken (hspot s t).2]
  obtain ⟨hgrow', hd, -⟩ := hf a a rfl (leave s t) _ hleave (.refl _) r u hend
  rw [htaken (hspot s t).1] at hgrow
  rw [htaken (hspot s t).2] at hgrow'
  refine ⟨hgrow.trans hgrow', hd, fun hunfinished hahead => ?_⟩
  obtain ⟨a', t', hmid', ha, hlike', hahead'⟩ := hgo (hunfinished.before hgrow')
    (hahead.congr (hspot s t).1 (hspot' s' s').1)
  obtain ⟨-, -, hgo'⟩ := hf a a' ha _ _ hleave (hout s s' t t' hlike hlike') r u hend
  obtain ⟨r', u', hend', hr, hlike'', hahead''⟩ := hgo' hunfinished
    (hahead'.congr (hspot s t).2 (hspot' s' t').2)
  exact ⟨r', u', within_iff.mpr ⟨a', t', hmid', hend'⟩, hr, hlike'', hahead''⟩

/-! ## Tokens -/

theorem mirrors_check (tag : Tag) : Mirrors all b (check tag) (check tag) id b := by
  refine mirrors_get fun s s' hb hlike => ?_
  exact mirrors_pure (by rw [Token.tag_of_sym hlike.sym]) s s' hb hlike

theorem mirrors_ifCheck {tag : Tag} {yes yes' no no' : Reading β}
    (hyes : Mirrors all b yes yes' ψ c) (hno : Mirrors all b no no' ψ c) :
    Mirrors all b (check tag >>= fun e => if e = true then yes else no)
      (check tag >>= fun e => if e = true then yes' else no') ψ c :=
  (mirrors_check tag).bind fun _ _ h => .ite h (fun _ => hyes) fun _ => hno

/-- What two lexers come to is alike where what is taken then is. -/
theorem like_face {u u' p q : Token} (hsym : u.sym = p.sym.face) (hsym' : u'.sym = q.sym.face)
    (hline : u.newlineBefore = p.newlineBefore) (hline' : u'.newlineBefore = q.newlineBefore)
    (h : p.Like q) : u.Like u' := by
  refine ⟨by rw [hsym, hsym', h.sym], fun hu => ?_⟩
  rw [hline, hline']
  refine h.lined fun hp => hu ?_
  have hface : p.sym.face = p.sym := if_neg (by simp [Token.sym, hp])
  exact (Token.tag_of_sym (hsym.trans hface)).trans hp

/-- The state behind a token that was taken and its like. -/
theorem like_after {u u' : Token} {lx lx' : Lexer} (h : s.Like s')
    (hnext : s.lexer.next = (.ok u, lx)) (hnext' : s'.lexer.next = (.ok u', lx'))
    (hu : u.Like u') :
    (s.seeing (s.sight.after u lx)).Like (s'.seeing (s'.sight.after u' lx')) := by
  have hdialect : lx'.dialect = lx.dialect := by
    rw [(Lexer.next_read hnext).like.1, (Lexer.next_read hnext').like.1, h.dialect]
  exact ⟨hu.sym, fun _ => hu, hdialect, h.scope, h.targets, h.labels, h.pendingLabels, h.nextId⟩

/-- A token that is not the last one is taken in both texts. -/
theorem mirrors_advance : Mirrors all b advance advance Token.sym true := by
  intro s s' hb hlike r u hrun
  obtain ⟨t, lx, hnext, hr⟩ := advance_inv hrun
  obtain ⟨rfl, rfl⟩ := Prod.mk.inj hr
  refine ⟨List.suffix_cons _ _, Nat.succ_lt_succ hb.started, ?_⟩
  rintro ⟨more, hne, hall⟩ ⟨_, cs, ts, cs', ts', -, htokens, hserves, hserves', hmatched, hheard⟩
  have hall' : s.taken.reverse ++ s.current :: more = all := by
    rw [← hall]
    simp [State.seeing, Sight.after, State.sight]
  have hts : ts.map Prod.fst = s.current :: more :=
    List.append_cancel_left (htokens.trans hall'.symm)
  -- Tokens are left behind the one that is taken, so it is not the end of the input.
  have hend : s.current.tag ≠ .endOfInput := by
    intro hend
    rw [hserves.finished hend] at hts
    exact hne (List.cons.inj hts).2.symm
  obtain ⟨ts, rfl, _, _, hnext₁, hyields⟩ := hserves.taken hend (by
    obtain ⟨p, ts, rfl, hp, -⟩ := List.map_eq_cons_iff.mp hts
    exact ⟨p, rfl, by rw [hp]⟩)
  obtain ⟨rfl, rfl⟩ := (Prod.mk.inj (hnext.symm.trans hnext₁)).imp_left Except.ok.inj
  cases ts' with
  | nil => exact hmatched.elim
  | cons q ts' =>
  obtain ⟨hsym, -, -, hmatched⟩ := hmatched
  have hend' : s'.current.tag ≠ .endOfInput := by rwa [Token.tag_of_sym hlike.sym]
  obtain ⟨ts', hcons, t', lx', hnext', hyields'⟩ := hserves'.taken hend'
    ⟨q, rfl, Token.tag_of_sym (hsym.trans hlike.sym.symm)⟩
  obtain ⟨-, rfl⟩ := List.cons.inj hcons
  obtain ⟨p₁, ts, rfl, hface, hline⟩ := hyields.face hnext
  obtain ⟨q₁, ts', rfl, hface', hline'⟩ := hyields'.face hnext'
  obtain ⟨hsym₁, hlike₁, hnone, hmatched⟩ := hmatched
  have hlike₂ := like_face hface hface' hline hline' (hlike₁ rfl)
  refine ⟨s'.current, _, advance_of hnext', hlike.sym, like_after hlike hnext hnext' hlike₂, true,
    lx.comments, _, lx'.comments, _, fun _ => rfl, ?_, hyields, hyields',
    ⟨hsym₁, hlike₁, hnone, hmatched⟩, ?_⟩
  · rw [← htokens]
    simp [State.seeing, Sight.after, State.sight]
  · have hnone : lx'.comments = [] := hnone
    simp [State.seeing, Sight.after, State.sight, hheard, hnone]

/-- Behind a slash that was read again stands a regular expression. -/
theorem rescan_congr {f : PUnit → Reading β} {m : Reading β}
    (h : ∀ s : State, s.current.tag = .regExp → f ⟨⟩ s = m s) :
    rescan >>= f = rescan >>= fun _ => m := by
  funext s
  cases hrun : rescan s with
  | error d => rw [bind_error hrun, bind_error hrun]
  | ok r =>
    obtain ⟨t, lx, hagain, rfl⟩ := rescan_inv hrun
    rw [bind_ok hrun, bind_ok hrun]
    exact h _ (Lexer.rescan_tag hagain)

/-- The token that a reading takes first is the first one ahead. -/
theorem head_ahead {f f' : Token → Reading β} {ts : List (Token × List Comment)} {r : β} {u : State}
    (hf : ∀ t t', Token.sym t' = Token.sym t → Mirrors all true (f t) (f' t') ψ c) (hb : Begun b s)
    (hrun : (advance >>= f) s = .ok (r, u)) (hunfinished : Unfinished all u)
    (htokens : s.taken.reverse ++ ts.map Prod.fst = all) : ∃ p ∈ ts.head?, p.1 = s.current := by
  obtain ⟨_, s₁, hadvance, hend⟩ := bind_iff.mp hrun
  obtain ⟨t, lx, -, hr⟩ := advance_inv hadvance
  obtain ⟨-, rfl⟩ := Prod.mk.inj hr
  have hb₁ : Begun true (s.seeing (s.sight.after t lx)) := Nat.succ_lt_succ hb.started
  obtain ⟨hgrow, -⟩ := hf _ _ rfl _ _ hb₁ (.refl _) r u hend
  obtain ⟨more, -, hall⟩ := hunfinished.before hgrow
  have hall : s.taken.reverse ++ s.current :: more = all := by
    rw [← hall]
    simp [State.seeing, Sight.after, State.sight]
  obtain ⟨p, ts, rfl, hp, -⟩ := List.map_eq_cons_iff.mp
    (List.append_cancel_left (htokens.trans hall.symm))
  exact ⟨p, rfl, hp⟩

/-- A slash that is read again and taken is the same pattern in both texts. -/
theorem mirrors_pattern {f f' : Token → Reading β} {ψ : β → δ}
    (hf : ∀ u u', Token.sym u' = Token.sym u → Mirrors all true (f u) (f' u') ψ c)
    (hslash : s.current.isSlash = true) (hb : Begun b s) (hlike : s.Like s') :
    MirrorsAt all c ψ s s' (rescan >>= fun _ => advance >>= f)
      (rescan >>= fun _ => advance >>= f') := by
  intro r u hrun
  obtain ⟨_, s₁, hrescan, hrest⟩ := bind_iff.mp hrun
  obtain ⟨t, lx, hagain, hr⟩ := rescan_inv hrescan
  obtain ⟨-, rfl⟩ := Prod.mk.inj hr
  have htake : Mirrors all b (advance >>= f) (advance >>= f') ψ c := mirrors_advance.bind hf
  obtain ⟨hgrow, hc, -⟩ := htake (s.seeing (s.sight.again t lx)) _ hb (.refl _) r u hrest
  refine ⟨hgrow, hc, fun hunfinished hahead => ?_⟩
  obtain ⟨lined, cs, ts, cs', ts', hlined, htokens, hserves, hserves', hmatched, hheard⟩ := hahead
  -- A slash that is served as it is would be the first token ahead, not the pattern.
  obtain ⟨p, hp, hpattern⟩ :=
    head_ahead (s := s.seeing (s.sight.again t lx)) hf hb hrest hunfinished htokens
  have hhead : p.1.tag = .regExp := hpattern ▸ Lexer.rescan_tag hagain
  obtain ⟨_, _, hagain₁, hserves⟩ := hserves.reread hslash ⟨p, hp, hhead⟩
  obtain ⟨rfl, rfl⟩ := (Prod.mk.inj (hagain.symm.trans hagain₁)).imp_left Except.ok.inj
  obtain ⟨more, rfl, hyields⟩ := hserves.pattern (Lexer.rescan_tag hagain)
  cases ts' with
  | nil => exact hmatched.elim
  | cons q ts' =>
  have hsym : q.1.sym = t.sym := hmatched.1
  have hslash' : s'.current.isSlash = true := by
    rwa [Token.isSlash_of_sym hlike.sym]
  obtain ⟨t', lx', hagain', hserves'⟩ := hserves'.reread hslash'
    ⟨q, rfl, (Token.tag_of_sym hsym).trans (Lexer.rescan_tag hagain)⟩
  obtain ⟨_, hcons, -⟩ := hserves'.pattern (Lexer.rescan_tag hagain')
  obtain ⟨rfl, rfl⟩ := List.cons.inj hcons
  have hdialect : lx'.dialect = lx.dialect := by
    obtain ⟨-, -, -, -, -, -, -, -, -, -, hkept⟩ := Lexer.rescan_inv hagain
    obtain ⟨-, -, -, -, -, -, -, -, -, -, hkept'⟩ := Lexer.rescan_inv hagain'
    rw [hkept.1, hkept'.1, hlike.dialect]
  obtain ⟨-, -, hgo⟩ := htake (s.seeing (s.sight.again t lx)) (s'.seeing (s'.sight.again t' lx')) hb
    ⟨hsym, fun h => hmatched.2.1 (hlined h), hdialect, hlike.scope, hlike.targets, hlike.labels,
      hlike.pendingLabels, hlike.nextId⟩ r u hrest
  obtain ⟨r', u', hend', hr', hlike', hahead'⟩ := hgo hunfinished
    ⟨lined, cs, _, cs', _, hlined, htokens, hserves, hserves', hmatched, hheard⟩
  exact ⟨r', u', (bind_ok (rescan_of hagain')).trans hend', hr', hlike', hahead'⟩

/-- A reading with the same result in both texts, and what comes behind it. -/
theorem Mirrors.next {f f' : α → Reading β} (hm : Mirrors all b m m' id c)
    (hf : ∀ a, Mirrors all c (f a) (f' a) ψ d) : Mirrors all b (m >>= f) (m' >>= f') ψ d :=
  hm.bind fun a a' h => (show a' = a from h) ▸ hf a

theorem mirrors_expect (tag : Tag) (what : Expected) :
    Mirrors all b (expect tag what) (expect tag what) Token.sym true :=
  mirrors_ifCheck mirrors_advance (mirrors_fail _)

theorem mirrors_accept (tag : Tag) : Mirrors all b (accept tag) (accept tag) id b :=
  mirrors_ifCheck (.weaken fun _ => mirrors_advance.bind fun _ _ _ => mirrors_pure rfl)
    (mirrors_pure rfl)

/-- What is of concern is of no account. -/
theorem mirrors_remark {m m' : Reading Unit}
    (hm : ∀ s, ∃ concerns, m s = .ok ((), { s with concerns }))
    (hm' : ∀ s, ∃ concerns, m' s = .ok ((), { s with concerns })) : Mirrors all b m m' id b := by
  intro s s' hb h r t hrun
  obtain ⟨concerns, hs⟩ := hm s
  obtain ⟨concerns', hs'⟩ := hm' s'
  rw [hs] at hrun
  obtain ⟨rfl, rfl⟩ := Prod.mk.inj (Except.ok.inj hrun)
  exact ⟨List.suffix_rfl, hb, fun _ hahead => ⟨_, _, hs', rfl,
    ⟨h.1, h.2, h.3, h.4, h.5, h.6, h.7, h.8⟩, hahead.congr rfl rfl⟩⟩

theorem mirrors_warn {w w' : Concern} {line line' : Nat} :
    Mirrors all b (warn w line) (warn w' line') id b :=
  mirrors_remark (fun _ => ⟨_, rfl⟩) fun _ => ⟨_, rfl⟩

theorem mirrors_omitSemicolon : Mirrors all b omitSemicolon omitSemicolon id b :=
  mirrors_modify (fun _ _ h => ⟨h.1, h.2, h.3, h.4, h.5, h.6, h.7, h.8⟩) (fun _ => rfl) fun _ => rfl

theorem mirrors_endStatement : Mirrors all true endStatement endStatement id true := by
  refine mirrors_get fun s s' hb hlike => ?_
  have htag := Token.tag_of_sym hlike.sym
  refine (Mirrors.ite (by rw [htag]) (fun _ => ?_) fun _ =>
    .ite (hlike.current hb).ends (fun _ => ?_) fun _ => ?_) s s' hb hlike
  · exact mirrors_advance.bind fun _ _ _ => mirrors_pure rfl
  · exact mirrors_omitSemicolon.next fun _ => mirrors_warn
  · exact mirrors_fail _

/-- Whether something is of concern may differ. -/
theorem mirrors_warnUnless {e e' : Bool} {w w' : Concern} {line line' : Nat} {m m' : Reading β}
    (h : Mirrors all b m m' ψ c) :
    Mirrors all b (if e = true then m else warn w line >>= fun _ => m)
      (if e' = true then m' else warn w' line' >>= fun _ => m') ψ c := by
  have hskip : ∀ (e : Bool) (w : Concern) (line : Nat) (m : Reading β),
      (if e = true then m else warn w line >>= fun _ => m)
        = ((if e = true then pure () else warn w line) >>= fun _ => m) := by
    intro e w line m
    cases e with
    | true => exact (pure_bind () fun _ => m).symm
    | false => rfl
  have hquiet : ∀ (e : Bool) (w : Concern) (line : Nat) (s : State), ∃ concerns,
      (if e = true then pure () else warn w line : Reading Unit) s
        = .ok ((), { s with concerns }) := by
    intro e w line s
    cases e with
    | true => exact ⟨s.concerns, rfl⟩
    | false => exact ⟨_, rfl⟩
  rw [hskip, hskip]
  exact (mirrors_remark (hquiet e w line) (hquiet e' w' line')).next fun _ => h

/-! ## Names -/

theorem mirrors_warnOfKeyword {name : String} {line line' : Nat} :
    Mirrors all b (warnOfKeyword name line) (warnOfKeyword name line') id b := by
  refine mirrors_get fun s s' hb hlike => ?_
  rw [hlike.dialect]
  split
  · exact mirrors_warn s s' hb hlike
  · exact mirrors_pure rfl s s' hb hlike

theorem mirrors_declaredName (what : Expected) :
    Mirrors all b (declaredName what) (declaredName what) Prod.fst true := by
  refine mirrors_get fun s s' hb hlike => ?_
  dsimp only
  rw [Token.tag_of_sym hlike.sym]
  split
  · refine (mirrors_advance.bind fun t t' ht => ?_) s s' hb hlike
    rw [Token.shown_of_sym ht]
    exact mirrors_warnOfKeyword.next fun _ => mirrors_pure rfl
  · exact mirrors_fail _ s s' hb hlike
  · exact mirrors_fail _ s s' hb hlike

/-! ## Nodes, scopes and jumps -/

theorem outline_put {kind : PropertyKind} (t : Tree) (value : PropertyValue)
    (h : kind ≠ .postfixForm) : (t.put kind value).outline = t.outline := by
  obtain ⟨id, data, children⟩ := t
  rw [Tree.put, Tree.mapData, Tree.outline_node, Tree.outline_node, Node.core, Node.core,
    Node.put, Properties.flag_put (Ne.symm h)]

theorem outline_withComments {kind : PropertyKind} (comments : List String) (t : Tree)
    (h : kind ≠ .postfixForm) : (withComments kind comments t).outline = t.outline := by
  unfold withComments
  split
  · rfl
  · exact outline_put t _ h

theorem mirrors_freshId : Mirrors all b freshId freshId id b := by
  intro s s' hb hlike r t hrun
  obtain ⟨rfl, rfl⟩ := Prod.mk.inj (Except.ok.inj hrun)
  refine ⟨List.suffix_rfl, hb, fun _ hahead => ⟨_, _, rfl, ?_, ?_, hahead.congr rfl rfl⟩⟩
  · exact congrArg NodeId.mk hlike.nextId
  · exact ⟨hlike.1, hlike.2, hlike.3, hlike.4, hlike.5, hlike.6, hlike.7, congrArg (· + 1) hlike.8⟩

theorem mirrors_makeNode {data data' : Node} {core : Core} {children children' : List Tree}
    (hdata : data.Plain core) (hdata' : data'.Plain core)
    (hchildren : children'.map Tree.outline = children.map Tree.outline) :
    Mirrors all b (makeNode data children) (makeNode data' children') Tree.outline b :=
  mirrors_freshId.next fun _ => mirrors_pure (by simp [hdata.core, hdata'.core, hchildren])

/-- The comments that a reading takes are of no account. -/
theorem mirrors_takeComments : Mirrors all b takeComments takeComments (fun _ => ()) b := by
  intro s s' hb hlike r t hrun
  obtain ⟨rfl, rfl⟩ := Prod.mk.inj (Except.ok.inj hrun)
  exact ⟨List.suffix_rfl, hb, fun _ hahead => ⟨_, _, rfl, rfl,
    ⟨hlike.1, hlike.2, hlike.3, hlike.4, hlike.5, hlike.6, hlike.7, hlike.8⟩,
    hahead.congr rfl rfl⟩⟩

theorem mirrors_withJumps {t t' : Tree} (h : t'.outline = t.outline) :
    Mirrors all b (withJumps t) (withJumps t') Tree.outline b := by
  have hsame : ∀ (jumps : List NodeId) (u : Tree),
      (if jumps.isEmpty then u else u.put .jumps (.nodes jumps)).outline = u.outline := by
    intro jumps u
    split
    · rfl
    · exact outline_put u _ (by simp)
  refine mirrors_get fun s s' hb hlike => mirrors_pure ?_ s s' hb hlike
  rw [hsame, hsame, h]

theorem mirrors_modifyScope (change : Scope → Scope) :
    Mirrors all b (modifyScope change) (modifyScope change) id b :=
  mirrors_modify (fun _ _ h => ⟨h.1, h.2, h.3, congrArg change h.4, h.5, h.6, h.7, h.8⟩)
    (fun _ => rfl) fun _ => rfl

theorem mirrors_declare (name : String) {line line' : Nat} :
    Mirrors all b (declare name line) (declare name line') id b := by
  refine mirrors_get fun s s' hb hlike => ?_
  rw [hlike.scope]
  exact (Mirrors.ite rfl (fun _ => mirrors_warn) fun _ => mirrors_modifyScope _) s s' hb hlike

theorem mirrors_withTarget {id : NodeId} {isLoop : Bool} {pending : List NodeId}
    (h : Mirrors all b m m' φ c) :
    Mirrors all b (withTarget id isLoop pending m) (withTarget id isLoop pending m') φ c :=
  mirrors_within (State.within · id isLoop pending) (State.within · id isLoop pending)
    (fun s t => { t with targets := s.targets, labels := s.labels })
    (fun s t => { t with targets := s.targets, labels := s.labels }) h
    (fun _ _ ha => mirrors_pure ha)
    (fun s s' h => ⟨h.1, h.2, h.3, h.4, by simp only [State.within, h.5],
      by simp only [State.within, h.6], h.7, h.8⟩)
    (fun _ _ _ _ h h' => ⟨h'.1, h'.2, h'.3, h'.4, h.5, h.6, h'.7, h'.8⟩)
    (fun _ _ => ⟨rfl, rfl⟩) fun _ _ => ⟨rfl, rfl⟩

theorem mirrors_inFunction {id : NodeId} (h : Mirrors all b m m' φ c) :
    Mirrors all b (inFunction id m) (inFunction id m') (fun r => (φ r.1, r.2)) c := by
  intro s s' hb hlike r u hrun
  obtain ⟨a, t, hmid, hend⟩ := inFunction_iff.mp hrun
  obtain ⟨rfl, rfl⟩ := Prod.mk.inj hend
  have hinside : (s.inside id).Like (s'.inside id) :=
    ⟨hlike.1, hlike.2, hlike.3, rfl, rfl, rfl, rfl, hlike.8⟩
  obtain ⟨hgrow, hc, hgo⟩ := h (s.inside id) (s'.inside id) hb hinside a t hmid
  refine ⟨hgrow, hc, fun hunfinished hahead => ?_⟩
  obtain ⟨a', t', hmid', ha, hlike', hahead'⟩ := hgo hunfinished (hahead.congr rfl rfl)
  refine ⟨_, _, inFunction_iff.mpr ⟨a', t', hmid', rfl⟩, ?_, ?_, hahead'.congr rfl rfl⟩
  · exact Prod.ext ha hlike'.scope
  · refine ⟨hlike'.1, hlike'.2, hlike'.3, ?_, hlike.5, hlike.6, hlike.7, hlike'.8⟩
    simp only [State.outside, hlike.4]

theorem mirrors_destination (tag : Tag) (label? : Option String) {line line' : Nat} :
    Mirrors all b (destination tag label? line) (destination tag label? line') id b := by
  refine mirrors_get fun s s' hb hlike => ?_
  have hlabel : ∀ name, labelNamed? name s' = labelNamed? name s := fun name => by
    rw [labelNamed?, labelNamed?, hlike.labels]
  rw [hlike.targets]
  cases label? with
  | none =>
    refine (Mirrors.ite rfl (fun _ => ?_) fun _ => ?_) s s' hb hlike
    · cases s.targets.head? with
      | none => exact mirrors_failAt _ _
      | some t => exact mirrors_pure rfl
    · cases s.targets.find? (·.isLoop) with
      | none => exact mirrors_failAt _ _
      | some t => exact mirrors_pure rfl
  | some name =>
    dsimp only
    rw [hlabel]
    cases labelNamed? name s with
    | none => exact mirrors_failAt _ _ s s' hb hlike
    | some l =>
      refine (Mirrors.ite rfl (fun _ => mirrors_pure rfl) fun _ => ?_) s s' hb hlike
      cases l.loop? with
      | none => exact mirrors_failAt _ _
      | some id => exact mirrors_pure rfl

end

end Grammar
end ScriptPress
