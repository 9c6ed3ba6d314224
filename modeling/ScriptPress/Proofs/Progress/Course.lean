import ScriptPress.Proofs.Insertion.Course
import ScriptPress.Proofs.Locating.Course
import ScriptPress.Proofs.Progress.Lexer

/-! # Readings that get ahead

Rules for readings that never go back, and for those among them that take a token. Two readings are
followed at once, which differ in the bounds on their depth and on the turns of their loops only:
where less is left of the text than the bounds allow, they do the same. Behind a token that was
taken less is left, so that one level of depth less is enough there.
-/
namespace ScriptPress.Grammar

namespace Sight

/-- How much can still be read from a sight on. -/
def left (v : Sight) : Nat := v.current.left v.lexer.rest

/-- A sight that is not behind another one. -/
structure Reaches (v w : Sight) : Prop where
  placed : w.Placed
  start : v.current.start ≤ w.current.start
  left : w.left ≤ v.left

/-- A sight whose current token begins behind that of another one. -/
structure Passes (v w : Sight) : Prop where
  placed : w.Placed
  start : v.current.start < w.current.start
  left : w.left < v.left

variable {u v w : Sight} {t : Token} {lx : Lexer}

theorem Reaches.refl (h : v.Placed) : v.Reaches v := ⟨h, le_rfl, le_rfl⟩

theorem Reaches.trans (h : u.Reaches v) (h' : v.Reaches w) : u.Reaches w :=
  ⟨h'.placed, h.start.trans h'.start, h'.left.trans h.left⟩

theorem Reaches.passes (h : u.Reaches v) (h' : v.Passes w) : u.Passes w :=
  ⟨h'.placed, h.start.trans_lt h'.start, h'.left.trans_le h.left⟩

theorem Passes.reached (h : u.Passes v) (h' : v.Reaches w) : u.Passes w :=
  ⟨h'.placed, h.start.trans_le h'.start, h'.left.trans_lt h.left⟩

theorem Placed.reaches_after (hv : v.Placed) (h : v.lexer.next = (.ok t, lx)) :
    v.Reaches (v.after t lx) :=
  ⟨hv.after h, hv.stop.trans (hv.after h).start,
    (Lexer.next_left h).trans (Token.length_le_left _ _)⟩

theorem Placed.passes_after (hv : v.Placed) (h : v.lexer.next = (.ok t, lx))
    (hne : v.current.tag ≠ .endOfInput) : v.Passes (v.after t lx) :=
  ⟨hv.after h, (hv.token hne).1.trans_le (hv.after h).start,
    (Lexer.next_left h).trans_lt (Token.length_lt_left hne)⟩

theorem Placed.reaches_again (hv : v.Placed) (hslash : v.current.isSlash = true)
    (h : v.lexer.rescan v.current = (.ok t, lx)) : v.Reaches (v.again t lx) :=
  ⟨hv.again hslash h, (Lexer.rescan_spans h (hv.slash hslash)).start.ge,
    Lexer.rescan_left h hslash⟩

end Sight

/-- The states at a place of the text from which less than a number of characters is left. -/
structure State.Under (n : Nat) (s : State) : Prop where
  placed : s.sight.Placed
  left : s.sight.left < n

/-- From a state, two readings do the same. They do not go back, and where the result is one of
those described, they have taken a token. -/
structure ConcursAt {α : Type} (P : α → Prop) (s : State) (m m' : Reading α) : Prop where
  same : m s = m' s
  ahead : ∀ a t, m s = .ok (a, t) →
    s.sight.Reaches t.sight ∧ (P a → s.sight.Passes t.sight)

def Concurs {α : Type} (n : Nat) (P : α → Prop) (m m' : Reading α) : Prop :=
  ∀ s : State, s.Under n → ConcursAt P s m m'

/-- Readings that need not take a token. -/
abbrev Onward {α : Type} (n : Nat) (m m' : Reading α) : Prop := Concurs n (fun _ => False) m m'

/-- Readings that take a token. -/
abbrev Past {α : Type} (n : Nat) (m m' : Reading α) : Prop := Concurs n (fun _ => True) m m'

/-- Readings that are begun only where there is a token to take. -/
def AtToken {α : Type} (n : Nat) (P : α → Prop) (m m' : Reading α) : Prop :=
  ∀ s : State, s.Under n → s.current.tag ≠ .endOfInput → ConcursAt P s m m'

/-- A turn that asks for another one. -/
def Turn.IsAgain {α β : Type} : Turn α β → Prop
  | .again _ => True
  | .done _ => False

section
variable {α β : Type} {n k : Nat} {P : α → Prop} {Q : β → Prop} {m m' : Reading α}
  {f f' : α → Reading β} {s t : State}

theorem State.Under.mono (h : s.Under k) (hk : k ≤ n) : s.Under n :=
  ⟨h.placed, h.left.trans_le hk⟩

theorem State.Under.reach (h : s.Under n) (ht : s.sight.Reaches t.sight) : t.Under n :=
  ⟨ht.placed, ht.left.trans_lt h.left⟩

theorem State.Under.pass (h : s.Under (n + 1)) (ht : s.sight.Passes t.sight) : t.Under n :=
  ⟨ht.placed, by have hleft := ht.left; have hs := h.left; omega⟩

/-! ## Rules for the shape of a reading -/

theorem ConcursAt.mono {P' : α → Prop} (h : ConcursAt P s m m') (hP : ∀ a, P' a → P a) :
    ConcursAt P' s m m' :=
  ⟨h.same, fun a t hrun => (h.ahead a t hrun).imp_right fun hgo ha => hgo (hP a ha)⟩

theorem ConcursAt.onward (h : ConcursAt P s m m') : ConcursAt (fun _ => False) s m m' :=
  h.mono fun _ => False.elim

theorem Concurs.onward (h : Concurs n P m m') : Onward n m m' := fun s hs => (h s hs).onward

theorem Concurs.lower (h : Concurs n P m m') (hk : k ≤ n) : Concurs k P m m' :=
  fun s hs => h s (hs.mono hk)

theorem AtToken.lower (h : AtToken n P m m') (hk : k ≤ n) : AtToken k P m m' :=
  fun s hs => h s (hs.mono hk)

theorem Concurs.atToken (h : Concurs n P m m') : AtToken n P m m' := fun s hs _ => h s hs

/-- A reading behind another one. A token is taken if one of them takes it. -/
theorem ConcursAt.join {R : β → Prop} (hm : ConcursAt P s m m')
    (hf : ∀ a t, s.sight.Reaches t.sight → (P a → s.sight.Passes t.sight) →
      ConcursAt R t (f a) (f' a) ∧ ∀ b, Q b → R b ∨ P a) :
    ConcursAt Q s (m >>= f) (m' >>= f') := by
  cases hrun : m s with
  | error d =>
    have hrun' : m' s = .error d := hm.same ▸ hrun
    refine ⟨by rw [bind_error hrun, bind_error hrun'], fun b u hend => ?_⟩
    rw [bind_error hrun] at hend
    cases hend
  | ok p =>
    obtain ⟨a, t⟩ := p
    have hrun' : m' s = .ok (a, t) := hm.same ▸ hrun
    obtain ⟨hreach, hpass⟩ := hm.ahead a t hrun
    obtain ⟨hgo, hone⟩ := hf a t hreach hpass
    refine ⟨by rw [bind_ok hrun, bind_ok hrun', hgo.same], fun b u hend => ?_⟩
    rw [bind_ok hrun] at hend
    obtain ⟨hreach', hpass'⟩ := hgo.ahead b u hend
    refine ⟨hreach.trans hreach', fun hb => ?_⟩
    exact (hone b hb).elim (fun hr => hreach.passes (hpass' hr)) fun ha => (hpass ha).reached hreach'

theorem ConcursAt.bind (hm : ConcursAt P s m m') (hs : s.Under n)
    (hf : ∀ a, Concurs n Q (f a) (f' a)) : ConcursAt Q s (m >>= f) (m' >>= f') :=
  hm.join fun a t hreach _ => ⟨hf a t (hs.reach hreach), fun _ => .inl⟩

theorem Concurs.bind (hm : Concurs n P m m') (hf : ∀ a, Concurs n Q (f a) (f' a)) :
    Concurs n Q (m >>= f) (m' >>= f') := fun s hs => (hm s hs).bind hs hf

/-- What begins with a token that is taken takes a token. -/
theorem ConcursAt.past (hm : ConcursAt (fun _ => True) s m m') (hs : s.Under n)
    (hf : ∀ a, Onward n (f a) (f' a)) : ConcursAt Q s (m >>= f) (m' >>= f') :=
  hm.join fun a t hreach _ => ⟨hf a t (hs.reach hreach), fun _ _ => .inr trivial⟩

theorem Concurs.past (hm : Past n m m') (hf : ∀ a, Onward n (f a) (f' a)) :
    Concurs n Q (m >>= f) (m' >>= f') := fun s hs => (hm s hs).past hs hf

theorem AtToken.past (hm : AtToken n (fun _ => True) m m') (hf : ∀ a, Onward n (f a) (f' a)) :
    AtToken n Q (m >>= f) (m' >>= f') := fun s hs hne => (hm s hs hne).past hs hf

/-- Behind a token that was taken, less depth is enough. -/
theorem ConcursAt.behind (hm : ConcursAt (fun _ => True) s m m') (hs : s.Under (n + 1))
    (hf : ∀ a, Onward n (f a) (f' a)) : ConcursAt Q s (m >>= f) (m' >>= f') :=
  hm.join fun a t _ hpass =>
    ⟨hf a t (hs.pass (hpass trivial)), fun _ _ => .inr trivial⟩

theorem Concurs.behind (hm : Past (n + 1) m m') (hf : ∀ a, Onward n (f a) (f' a)) :
    Concurs (n + 1) Q (m >>= f) (m' >>= f') := fun s hs => (hm s hs).behind hs hf

theorem AtToken.behind (hm : AtToken (n + 1) (fun _ => True) m m')
    (hf : ∀ a, Onward n (f a) (f' a)) : AtToken (n + 1) Q (m >>= f) (m' >>= f') :=
  fun s hs hne => (hm s hs hne).behind hs hf

theorem concursAt_reaches (h : ∀ a t, m s = .ok (a, t) → s.sight.Reaches t.sight) :
    ConcursAt (fun _ => False) s m m :=
  ⟨rfl, fun a t hrun => ⟨h a t hrun, False.elim⟩⟩

/-- A reading that neither sees nor moves its place. -/
theorem Blind.onward (hm : Blind m) : Onward n m m := by
  refine fun s hs => concursAt_reaches fun a t hrun => ?_
  rw [hm.still hrun]
  exact .refl hs.placed

theorem concurs_pure {a : α} (h : ¬ P a) : Concurs n P (pure a : Reading α) (pure a) := by
  intro s hs
  refine ⟨rfl, fun b t hrun => ?_⟩
  obtain ⟨rfl, rfl⟩ := Prod.mk.inj (Except.ok.inj hrun)
  exact ⟨.refl hs.placed, fun ha => absurd ha h⟩

theorem onward_pure (a : α) : Onward n (pure a : Reading α) (pure a) := concurs_pure id

/-- A reading that always ends at a problem. -/
theorem concurs_fails (h : ∀ s, ∃ d, m s = .error d) : Concurs n P m m := by
  refine fun s hs => ⟨rfl, fun a t hrun => ?_⟩
  obtain ⟨d, hd⟩ := h s
  rw [hd] at hrun
  cases hrun

theorem concurs_fail (p : Problem) : Concurs n P (fail p : Reading α) (fail p) :=
  concurs_fails fun _ => ⟨_, rfl⟩

theorem concurs_failAt (line : Nat) (p : Problem) :
    Concurs n P (failAt line p : Reading α) (failAt line p) := concurs_fails fun _ => ⟨_, rfl⟩

theorem concurs_unexpected : Concurs n P (unexpected : Reading α) unexpected := by
  intro s _
  refine ⟨rfl, fun a t hrun => ?_⟩
  exact (ensures_iff.mp (ensures_unexpected (Q := fun _ _ => False)) a t hrun).elim

/-- A question about the state. -/
theorem concurs_ask {f f' : State → Reading β}
    (hf : ∀ s, s.Under n → ConcursAt Q s (f s) (f' s)) :
    Concurs n Q (get >>= f) (get >>= f') :=
  fun s hs => ⟨(hf s hs).same, (hf s hs).ahead⟩

theorem atToken_ask {f f' : State → Reading β}
    (hf : ∀ s, s.Under n → s.current.tag ≠ .endOfInput → ConcursAt Q s (f s) (f' s)) :
    AtToken n Q (get >>= f) (get >>= f') :=
  fun s hs hne => ⟨(hf s hs hne).same, (hf s hs hne).ahead⟩

theorem onward_modify {change : State → State} (h : ∀ s : State, (change s).sight = s.sight) :
    Onward n (modify change : Reading Unit) (modify change) := by
  refine fun s hs => concursAt_reaches fun a t hrun => ?_
  obtain ⟨rfl, rfl⟩ := Prod.mk.inj (Except.ok.inj hrun)
  rw [h s]
  exact .refl hs.placed

theorem ConcursAt.ite {yes no yes' no' : Reading β} {b : Bool}
    (hyes : b = true → ConcursAt Q s yes yes') (hno : ConcursAt Q s no no') :
    ConcursAt Q s (if b = true then yes else no) (if b = true then yes' else no') := by
  split
  · next hb => exact hyes hb
  · exact hno

theorem Concurs.ite {yes no yes' no' : Reading β} {b : Bool} (hyes : Concurs n Q yes yes')
    (hno : Concurs n Q no no') :
    Concurs n Q (if b = true then yes else no) (if b = true then yes' else no') :=
  fun s hs => .ite (fun _ => hyes s hs) (hno s hs)

/-- A reading in a state that was changed for it, where neither the change nor the one back has to
do with the text. -/
theorem concurs_within (enter : State → State) (leave : State → State → State)
    (hm : Onward n m m') (hf : ∀ a, Onward n (f a) (f' a))
    (hin : ∀ s : State, (enter s).sight = s.sight)
    (hout : ∀ s t : State, (leave s t).sight = t.sight) :
    Onward n (within enter leave m f) (within enter leave m' f') := by
  intro s hs
  have hrest : ∀ a, Onward n (modify (leave s) >>= fun _ => f a)
      (modify (leave s) >>= fun _ => f' a) := fun a => (onward_modify (hout s)).bind fun _ => hf a
  have henter : (enter s).Under n := ⟨(hin s).symm ▸ hs.placed, (hin s).symm ▸ hs.left⟩
  have hgo := (hm (enter s) henter).bind henter hrest
  exact ⟨hgo.same, fun a t hrun => hin s ▸ hgo.ahead a t hrun⟩

/-! ## Tokens -/

theorem concursAt_advance {P : Token → Prop} (hs : s.sight.Placed)
    (h : ∀ t, P t → s.current.tag ≠ .endOfInput) : ConcursAt P s advance advance := by
  refine ⟨rfl, fun a t hrun => ?_⟩
  obtain ⟨next, lx, hnext, hr⟩ := advance_inv hrun
  obtain ⟨rfl, rfl⟩ := Prod.mk.inj hr
  exact ⟨hs.reaches_after hnext, fun ha => hs.passes_after hnext (h _ ha)⟩

theorem onward_advance : Onward n advance advance :=
  fun _ hs => concursAt_advance hs.placed fun _ => False.elim

theorem atToken_advance : AtToken n (fun _ => True) advance advance :=
  fun _ hs hne => concursAt_advance hs.placed fun _ _ => hne

theorem concursAt_rescan (hs : s.sight.Placed) (hslash : s.current.isSlash = true) :
    ConcursAt (fun _ => False) s rescan rescan := by
  refine concursAt_reaches fun a t hrun => ?_
  obtain ⟨next, lx, hnext, hr⟩ := rescan_inv hrun
  obtain ⟨rfl, rfl⟩ := Prod.mk.inj hr
  exact hs.reaches_again hslash hnext

theorem onward_check (tag : Tag) : Onward n (check tag) (check tag) :=
  concurs_ask fun s hs => onward_pure _ s hs

/-- A branch on the tag of the current token. -/
theorem concurs_ifCheck {yes no yes' no' : Reading β} {tag : Tag} (htag : tag ≠ .endOfInput)
    (hyes : AtToken n Q yes yes') (hno : Concurs n Q no no') :
    Concurs n Q (check tag >>= fun b => if b = true then yes else no)
      (check tag >>= fun b => if b = true then yes' else no') := by
  change Concurs n Q (get >>= fun s : State => if (s.current.tag == tag) = true then yes else no)
    (get >>= fun s : State => if (s.current.tag == tag) = true then yes' else no')
  exact concurs_ask fun s hs =>
    .ite (fun h => hyes s hs (beq_iff_eq.mp h ▸ htag)) (hno s hs)

theorem past_expect {tag : Tag} {what : Expected} (htag : tag ≠ .endOfInput) :
    Past n (expect tag what) (expect tag what) :=
  concurs_ifCheck htag atToken_advance (concurs_fail _)

theorem onward_accept (tag : Tag) : Onward n (accept tag) (accept tag) := by
  change Onward n (get >>= fun s : State => if (s.current.tag == tag) = true
    then advance >>= fun _ => pure true else pure false) (get >>= _)
  refine concurs_ask fun s hs => .ite (fun _ => ?_) (onward_pure false s hs)
  exact (onward_advance.bind fun _ => onward_pure true) s hs

theorem onward_warn (c : Concern) (line : Nat) : Onward n (warn c line) (warn c line) :=
  onward_modify fun _ => rfl

theorem onward_endStatement : Onward n endStatement endStatement := by
  refine concurs_ask fun s hs => .ite (fun _ => ?_) (.ite (fun _ => ?_) (concurs_fail _ s hs))
  · exact (onward_advance.bind fun _ => onward_pure ()) s hs
  · refine concursAt_reaches fun a t hrun => ?_
    obtain ⟨rfl, rfl⟩ : a = () ∧ t = s.unended := Prod.mk.inj (Except.ok.inj hrun).symm
    exact ⟨hs.placed.unended, le_rfl, le_rfl⟩

/-! ## Names -/

theorem past_declaredName (what : Expected) : Past n (declaredName what) (declaredName what) := by
  refine concurs_ask fun s hs => ?_
  dsimp only
  split
  · next htag =>
    refine (atToken_advance s hs (by simp [htag])).past hs fun t => ?_
    exact (blind_warnOfKeyword _ _).onward.bind fun _ => onward_pure _
  · exact concurs_fail _ s hs
  · exact concurs_fail _ s hs

/-! ## Comments, jumps and scopes -/

theorem onward_takeComments : Onward n takeComments takeComments := by
  refine fun s hs => concursAt_reaches fun a t hrun => ?_
  obtain ⟨rfl, rfl⟩ := Prod.mk.inj (Except.ok.inj hrun)
  have hbare : Stance.anywhere.Holds { s.sight with comments := [] } :=
    Stance.Holds.bare (x := .anywhere) hs.placed
  exact ⟨hbare, le_rfl, le_rfl⟩

theorem onward_withTarget {id : NodeId} {isLoop : Bool} {pending : List NodeId}
    (h : Onward n m m') : Onward n (withTarget id isLoop pending m) (withTarget id isLoop pending m') :=
  concurs_within (State.within · id isLoop pending)
    (fun s t => { t with targets := s.targets, labels := s.labels }) h
    (fun a => onward_pure a) (fun _ => rfl) fun _ _ => rfl

theorem onward_inFunction {id : NodeId} (h : Onward n m m') :
    Onward n (inFunction id m) (inFunction id m') := by
  intro s hs
  let rest : α → Reading (α × Scope) := fun a =>
    get >>= fun t : State => modify (s.outside · id) >>= fun _ => pure (a, t.scope)
  have hback : Onward n (modify (s.outside · id)) (modify (s.outside · id)) :=
    onward_modify fun _ => rfl
  have hrest : ∀ a, Onward n (rest a) (rest a) := fun a =>
    concurs_ask fun t ht => (hback.bind fun _ => onward_pure (a, t.scope)) t ht
  have hgo := (h (s.inside id) ⟨hs.placed, hs.left⟩).bind ⟨hs.placed, hs.left⟩ hrest
  exact ⟨hgo.same, hgo.ahead⟩

/-! ## Loops -/

/-- The outcome of a loop that may take any number of turns. -/
inductive RunsTo (step : α → Reading (Turn α β)) :
    α → State → Except Diagnostic (β × State) → Prop
  | fails {a s d} : step a s = .error d → RunsTo step a s (.error d)
  | ends {a s b t} : step a s = .ok (.done b, t) → RunsTo step a s (.ok (b, t))
  | again {a s a' t r} : step a s = .ok (.again a', t) → RunsTo step a' t r → RunsTo step a s r

variable {step step' : α → Reading (Turn α β)} {fuel fuel' : Nat}

/-- A loop each of whose turns takes a token before the next turn comes to its end within as many
turns as there are characters left. -/
theorem runsTo_iterate (hstep : ∀ a, Concurs n Turn.IsAgain (step a) (step a)) (hn : n ≤ fuel)
    (a : α) (hs : s.Under n) : RunsTo step a s (iterate step fuel a s) := by
  induction n generalizing fuel a s with
  | zero => exact absurd hs.left (Nat.not_lt_zero _)
  | succ n ih =>
    obtain ⟨fuel, rfl⟩ : ∃ k, fuel = k + 1 := ⟨fuel - 1, by omega⟩
    rw [iterate]
    cases hturn : step a s with
    | error d =>
      rw [bind_error hturn]
      exact .fails hturn
    | ok p =>
      obtain ⟨turn, t⟩ := p
      rw [bind_ok hturn]
      cases turn with
      | done b => exact .ends hturn
      | again a' =>
        have hpass := ((hstep a s hs).ahead _ t hturn).2 trivial
        exact .again hturn (ih (fun a => (hstep a).lower (Nat.le_succ n)) (by omega) a'
          (hs.pass hpass))

theorem onward_iterate (hstep : ∀ a, Concurs n Turn.IsAgain (step a) (step' a)) (hn : n ≤ fuel)
    (hn' : n ≤ fuel') (a : α) : Onward n (iterate step fuel a) (iterate step' fuel' a) := by
  induction n generalizing fuel fuel' a with
  | zero => exact fun s hs => absurd hs.left (Nat.not_lt_zero _)
  | succ n ih =>
    obtain ⟨fuel, rfl⟩ : ∃ k, fuel = k + 1 := ⟨fuel - 1, by omega⟩
    obtain ⟨fuel', rfl⟩ : ∃ k, fuel' = k + 1 := ⟨fuel' - 1, by omega⟩
    refine fun s hs => (hstep a s hs).join (R := fun _ => False) fun turn t hreach hpass =>
      ⟨?_, fun _ => False.elim⟩
    cases turn with
    | done b => exact onward_pure b t (hs.reach hreach)
    | again a' =>
      exact ih (fun a => (hstep a).lower (Nat.le_succ n)) (by omega) (by omega) a' t
        (hs.pass (hpass trivial))

end
end ScriptPress.Grammar
