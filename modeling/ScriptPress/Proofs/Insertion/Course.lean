import ScriptPress.Proofs.Insertion.Twin
import ScriptPress.Proofs.Jumps.Expression

/-! # Two readings side by side

Rules for a reading of a script and the same reading of the script with semicolons put in. Where
the first reading ends well, the second one does, with the same result. Whether a token gets a
semicolon is known only where its statement ends, so that a rule looks back from the places that
fit at the end of a reading to those that fit at its beginning.
-/
namespace ScriptPress.Grammar

open Sight (Placed Fits Owes Level Faces Beside)

/-- What a reading is begun from: any state, a state behind a token that was taken, or a state
with a token to look at. -/
inductive Stance where
  | anywhere
  | behind
  | facing (t : Token)

def Stance.Holds : Stance → Sight → Prop
  | .anywhere, v => v.Placed
  | .behind, v => v.Placed ∧ v.previousStop ∉ v.omitted
  | .facing t, v => v.Placed ∧ v.current = t

/-- What is known of the places that get a semicolon: that they fit, or in addition that the last
token taken has got its own. -/
inductive Outlook where
  | fits
  | settled

def Outlook.Holds (places : List Nat) : Outlook → Sight → Prop
  | .fits, v => v.Fits places
  | .settled, v => v.Fits places ∧ ¬ v.Owes places

/-- The state of the second reading beside the one of the first. -/
def Twin (places : List Nat) (s s' : State) : Prop :=
  ∃ k, s' = s.hushed.seeing k ∧ s.sight.Beside places k

/-- From a stance with an outlook, a reading that ends well goes to another stance with another
outlook, and the second reading goes with it to the same result. -/
def Tracks {α : Type} (places : List Nat) (x : Stance) (b : Outlook) (m m' : Reading α)
    (y : Stance) (c : Outlook) : Prop :=
  ∀ s a t, x.Holds s.sight → m s = .ok (a, t) → y.Holds t.sight
    ∧ (c.Holds places t.sight → b.Holds places s.sight
      ∧ ∀ s', Twin places s s' → ∃ t', m' s' = .ok (a, t') ∧ Twin places t t')

section
variable {α β : Type} {places : List Nat} {x y z x' y' : Stance} {b c d b' c' : Outlook}
  {m m' : Reading α} {f f' : α → Reading β} {t : Token} {v : Sight} {s s' : State}

theorem Stance.Holds.placed (h : x.Holds v) : v.Placed := by
  cases x with
  | anywhere => exact h
  | behind => exact h.1
  | facing t => exact h.1

theorem Outlook.Holds.fits (h : c.Holds places v) : v.Fits places := by
  cases c with
  | fits => exact h
  | settled => exact h.1

theorem Outlook.of_settled (h : Outlook.settled.Holds places v) : c.Holds places v := by
  cases c with
  | fits => exact h.1
  | settled => exact h

/-! ## Rules for the shape of a reading -/

theorem Tracks.mono (h : Tracks places x b m m' y c) (hx : ∀ v, x'.Holds v → x.Holds v)
    (hb : ∀ v, b.Holds places v → b'.Holds places v) (hy : ∀ v, y.Holds v → y'.Holds v)
    (hc : ∀ v, c'.Holds places v → c.Holds places v) : Tracks places x' b' m m' y' c' := by
  intro s a t hs hm
  obtain ⟨ht, hgo⟩ := h s a t (hx _ hs) hm
  exact ⟨hy _ ht, fun hfits => (hgo (hc _ hfits)).imp_left (hb _)⟩

theorem bind_iff {s : State} {r : β × State} :
    (m >>= f) s = .ok r ↔ ∃ a t, m s = .ok (a, t) ∧ f a t = .ok r := by
  constructor
  · intro h
    cases hm : m s with
    | error d => simp [bind_error hm] at h
    | ok p => exact ⟨p.1, p.2, rfl, by rwa [bind_ok hm] at h⟩
  · rintro ⟨a, t, hm, hf⟩
    rw [bind_ok hm, hf]

theorem Tracks.bind (hm : Tracks places x b m m' y c)
    (hf : ∀ a, Tracks places y c (f a) (f' a) z d) :
    Tracks places x b (m >>= f) (m' >>= f') z d := by
  intro s r u hs hrun
  obtain ⟨a, t, hmid, hend⟩ := bind_iff.mp hrun
  obtain ⟨ht, hback⟩ := hm s a t hs hmid
  obtain ⟨hu, hback'⟩ := hf a t r u ht hend
  refine ⟨hu, fun hfits => ?_⟩
  obtain ⟨hc, hgo'⟩ := hback' hfits
  obtain ⟨hb, hgo⟩ := hback hc
  refine ⟨hb, fun s' hs' => ?_⟩
  obtain ⟨t', hmid', ht'⟩ := hgo s' hs'
  obtain ⟨u', hend', hu'⟩ := hgo' t' ht'
  exact ⟨u', (bind_ok hmid').trans hend', hu'⟩

/-- A reading that always ends at a problem. -/
theorem tracks_fails (h : ∀ s, ∃ d, m s = .error d) : Tracks places x b m m' y c := by
  intro s a t _ hm
  obtain ⟨d, hd⟩ := h s
  simp [hd] at hm

theorem tracks_fail {p : Problem} : Tracks places x b (fail p : Reading α) m' y c :=
  tracks_fails fun _ => ⟨_, rfl⟩

theorem tracks_failAt {line : Nat} {p : Problem} :
    Tracks places x b (failAt line p : Reading α) m' y c :=
  tracks_fails fun _ => ⟨_, rfl⟩

theorem tracks_unexpected : Tracks places x b (unexpected : Reading α) m' y c := by
  intro s a t _ hm
  exact (ensures_iff.mp (ensures_unexpected (Q := fun _ _ => False)) a t hm).elim

/-- A loop whose turns take their state to one that the next turn can begin from. -/
theorem tracks_iterate {γ : Type} {step step' : α → Reading (Turn α γ)}
    (hstep : ∀ a, Tracks places x b (step a) (step' a) y c)
    (hyx : ∀ v, y.Holds v → x.Holds v)
    (hbc : ∀ v, b.Holds places v → c.Holds places v) {n n' : Nat} (hn : n ≤ n') (a : α) :
    Tracks places x b (iterate step n a) (iterate step' n' a) y c := by
  induction n generalizing n' a with
  | zero => exact tracks_unexpected
  | succ n ih =>
    obtain ⟨n', rfl⟩ : ∃ k, n' = k + 1 := ⟨n' - 1, by omega⟩
    intro s r u hs hrun
    obtain ⟨turn, t, hturn, hend⟩ := bind_iff.mp hrun
    obtain ⟨ht, hback⟩ := hstep a s turn t hs hturn
    cases turn with
    | done g =>
      obtain ⟨rfl, rfl⟩ := Prod.mk.inj (Except.ok.inj hend)
      refine ⟨ht, fun hfits => (hback hfits).imp_right fun hgo s' hs' => ?_⟩
      obtain ⟨t', hturn', ht'⟩ := hgo s' hs'
      exact ⟨t', bind_ok hturn', ht'⟩
    | again a' =>
      obtain ⟨hu, hback'⟩ := ih (Nat.le_of_succ_le_succ hn) a' t r u (hyx _ ht) hend
      refine ⟨hu, fun hfits => ?_⟩
      obtain ⟨hb, hgo'⟩ := hback' hfits
      refine (hback (hbc _ hb)).imp_right fun hgo s' hs' => ?_
      obtain ⟨t', hturn', ht'⟩ := hgo s' hs'
      obtain ⟨u', hend', hu'⟩ := hgo' t' ht'
      exact ⟨u', (bind_ok hturn').trans hend', hu'⟩

/-! ## Steps that do not look at the text -/

/-- A reading that neither sees nor changes what a state sees of its text, apart from the dialect,
and does not mention missing semicolons. -/
structure Blind (m : Reading α) : Prop where
  seeing : ∀ s v, v.lexer.dialect = s.lexer.dialect →
    m (s.seeing v) = (m s).map fun r => (r.1, r.2.seeing v)
  hushed : ∀ s, m s.hushed = (m s).map fun r => (r.1, r.2.hushed)

theorem Blind.still {a : α} {t : State} (hm : Blind m) (h : m s = .ok (a, t)) :
    t.sight = s.sight := by
  have hself : m s = (m s).map fun r => (r.1, r.2.seeing s.sight) := hm.seeing s s.sight rfl
  rw [h] at hself
  have hsame : t = t.seeing s.sight := (Prod.mk.inj (Except.ok.inj hself)).2
  exact (congrArg State.sight hsame).trans rfl

theorem Blind.tracks (hm : Blind m) : Tracks places x b m m x b := by
  intro s a t hs h
  have hstill := hm.still h
  refine ⟨hstill ▸ hs, fun hfits => ⟨hstill ▸ hfits, ?_⟩⟩
  rintro _ ⟨k, rfl, hk⟩
  refine ⟨t.hushed.seeing k, ?_, k, rfl, hstill ▸ hk⟩
  rw [hm.seeing s.hushed k hk.dialect, hm.hushed, h]
  rfl

theorem Blind.next (hm : Blind m) (hf : ∀ a, Tracks places x b (f a) (f' a) z d) :
    Tracks places x b (m >>= f) (m >>= f') z d := hm.tracks.bind hf

/-- The end of a reading that owes no semicolon. -/
theorem Blind.settles (hm : Blind m) : Tracks places x .settled m m .anywhere .settled :=
  hm.tracks.mono (fun _ h => h) (fun _ h => h) (fun _ h => h.placed) fun _ h => h

theorem Blind.bind (hm : Blind m) (hf : ∀ a, Blind (f a)) : Blind (m >>= f) := by
  constructor
  · intro s v hv
    cases h : m s with
    | error e =>
      rw [bind_error h, bind_error (by rw [hm.seeing s v hv, h]; rfl)]
      rfl
    | ok p =>
      obtain ⟨a, t⟩ := p
      have hdialect : v.lexer.dialect = t.lexer.dialect :=
        hv.trans (congrArg (fun w : Sight => w.lexer.dialect) (hm.still h)).symm
      rw [bind_ok h, bind_ok (by rw [hm.seeing s v hv, h]; rfl), (hf a).seeing t v hdialect]
  · intro s
    cases h : m s with
    | error e =>
      rw [bind_error h, bind_error (by rw [hm.hushed, h]; rfl)]
      rfl
    | ok p => rw [bind_ok h, bind_ok (by rw [hm.hushed, h]; rfl), (hf p.1).hushed]

theorem blind_pure (a : α) : Blind (pure a : Reading α) := ⟨fun _ _ _ => rfl, fun _ => rfl⟩

theorem blind_failAt (line : Nat) (p : Problem) : Blind (failAt line p : Reading α) :=
  ⟨fun _ _ _ => rfl, fun _ => rfl⟩

theorem blind_freshId : Blind freshId := ⟨fun _ _ _ => rfl, fun _ => rfl⟩

theorem blind_makeNode (data : Node) (children : List Tree) : Blind (makeNode data children) :=
  ⟨fun _ _ _ => rfl, fun _ => rfl⟩

theorem blind_modifyScope (change : Scope → Scope) : Blind (modifyScope change) :=
  ⟨fun _ _ _ => rfl, fun _ => rfl⟩

theorem blind_warn {w : Concern} (hw : w ≠ .missingSemicolon) (line : Nat) :
    Blind (warn w line) := by
  refine ⟨fun _ _ _ => rfl, fun s => ?_⟩
  have hkept : (s.concerns ++ [(w, line)]).filter (·.1 != .missingSemicolon)
      = s.concerns.filter (·.1 != .missingSemicolon) ++ [(w, line)] := by
    simp [List.filter_append, hw]
  exact congrArg (fun concerns => Except.ok ((), { s with concerns })) hkept.symm

/-- A question about the state that its sight does not answer. -/
theorem blind_get {f : State → Reading α} (h : ∀ s, Blind (f s))
    (hseeing : ∀ s v, v.lexer.dialect = s.lexer.dialect → f (s.seeing v) = f s)
    (hhushed : ∀ s, f s.hushed = f s) : Blind (get >>= f) := by
  constructor
  · intro s v hv
    change f (s.seeing v) (s.seeing v) = (f s s).map _
    rw [hseeing s v hv, (h s).seeing s v hv]
  · intro s
    change f s.hushed s.hushed = (f s s).map _
    rw [hhushed, (h s).hushed]

theorem blind_warnOfKeyword (name : String) (line : Nat) : Blind (warnOfKeyword name line) := by
  refine blind_get (fun s => ?_) (fun s v hv => ?_) fun s => rfl
  · split
    · exact blind_warn (by simp) line
    · exact blind_pure _
  · simp only [State.seeing, hv]

theorem blind_declare (name : String) (line : Nat) : Blind (declare name line) := by
  refine blind_get (fun s => ?_) (fun _ _ _ => rfl) fun _ => rfl
  split
  · exact blind_warn (by simp) line
  · exact blind_modifyScope _

theorem blind_noteUse (name : String) : Blind (noteUse name) := blind_modifyScope _

theorem blind_needActivation : Blind needActivation := blind_modifyScope _

theorem blind_withJumps (t : Tree) : Blind (withJumps t) :=
  blind_get (fun _ => blind_pure _) (fun _ _ _ => rfl) fun _ => rfl

theorem blind_destination (tag : Tag) (label? : Option String) (line : Nat) :
    Blind (destination tag label? line) := by
  refine blind_get (fun s => ?_) (fun _ _ _ => rfl) fun _ => rfl
  split
  · split
    · split
      · exact blind_pure _
      · exact blind_failAt _ _
    · split
      · exact blind_pure _
      · exact blind_failAt _ _
  · split
    · exact blind_failAt _ _
    · split
      · exact blind_pure _
      · split
        · exact blind_pure _
        · exact blind_failAt _ _

/-! ## Readings inside a statement or a function -/

theorem inFunction_iff {id : NodeId} {s : State} {r : (α × Scope) × State} :
    inFunction id m s = .ok r ↔ ∃ a t, m (s.inside id) = .ok (a, t)
      ∧ ((a, t.scope), s.outside t id) = r := by
  refine Iff.trans (show _ ↔ (m >>= fun a => get >>= fun t : State => modify (s.outside · id)
    >>= fun _ => pure (a, t.scope)) (s.inside id) = .ok r from Iff.rfl) (bind_iff.trans ?_)
  exact exists_congr fun a => exists_congr fun t => and_congr_right fun _ =>
    ⟨Except.ok.inj, congrArg _⟩

/-- A reading in a state that was changed for it, and what comes behind it. -/
def within (enter : State → State) (leave : State → State → State) (m : Reading α)
    (f : α → Reading β) : Reading β := do
  let s ← get
  set (enter s)
  let a ← m
  modify (leave s)
  f a

theorem within_iff {enter : State → State} {leave : State → State → State} {s : State}
    {r : β × State} : within enter leave m f s = .ok r
      ↔ ∃ a t, m (enter s) = .ok (a, t) ∧ f a (leave s t) = .ok r :=
  Iff.trans (show _ ↔ (m >>= fun a => modify (leave s) >>= fun _ => f a) (enter s) = .ok r
    from Iff.rfl) bind_iff

/-- Neither the change before the reading nor the one behind it has to do with the text. -/
theorem tracks_within (enter : State → State) (leave : State → State → State)
    (hm : Tracks places x b m m' y c) (hf : ∀ a, Tracks places y c (f a) (f' a) z d)
    (hin : ∀ s v, enter (State.seeing (State.hushed s) v) = (enter s).hushed.seeing v)
    (hout : ∀ s v t w, leave (State.seeing (State.hushed s) v) (State.seeing (State.hushed t) w)
      = (leave s t).hushed.seeing w)
    (hsight : ∀ s t, (enter s).sight = s.sight ∧ (leave s t).sight = t.sight) :
    Tracks places x b (within enter leave m f) (within enter leave m' f') z d := by
  intro s r u hs hgo
  obtain ⟨a, t, hmid, hend⟩ := within_iff.mp hgo
  obtain ⟨ht, hback⟩ := hm (enter s) a t ((hsight s t).1 ▸ hs) hmid
  obtain ⟨hu, hback'⟩ := hf a (leave s t) r u ((hsight s t).2 ▸ ht) hend
  refine ⟨hu, fun hfits => ?_⟩
  obtain ⟨hc, hgo'⟩ := hback' hfits
  obtain ⟨hb, hgo⟩ := hback ((hsight s t).2 ▸ hc)
  refine ⟨(hsight s t).1 ▸ hb, ?_⟩
  rintro _ ⟨k, rfl, hk⟩
  obtain ⟨_, hmid', k', rfl, hk'⟩ := hgo _ ⟨k, hin s k, (hsight s t).1 ▸ hk⟩
  obtain ⟨u', hend', hu'⟩ := hgo' _ ⟨k', hout s k t k', (hsight s t).2 ▸ hk'⟩
  exact ⟨u', within_iff.mpr ⟨a, _, hmid', hend'⟩, hu'⟩

theorem tracks_withTarget {id : NodeId} {isLoop : Bool} {pending : List NodeId}
    (h : Tracks places x b m m' y c) :
    Tracks places x b (withTarget id isLoop pending m) (withTarget id isLoop pending m') y c :=
  tracks_within (State.within · id isLoop pending)
    (fun s t => { t with targets := s.targets, labels := s.labels }) h
    (fun _ => (blind_pure _).tracks) (fun _ _ => rfl) (fun _ _ _ _ => rfl) fun _ _ => ⟨rfl, rfl⟩

theorem tracks_inFunction {id : NodeId} (h : Tracks places x b m m' y c) :
    Tracks places x b (inFunction id m) (inFunction id m') y c := by
  intro s r u hs hrun
  obtain ⟨a, t, hmid, hend⟩ := inFunction_iff.mp hrun
  obtain ⟨rfl, rfl⟩ := Prod.mk.inj hend
  obtain ⟨ht, hback⟩ := h (s.inside id) a t hs hmid
  refine ⟨ht, fun hfits => (hback hfits).imp_right ?_⟩
  rintro hgo _ ⟨k, rfl, hk⟩
  obtain ⟨_, hmid', k', rfl, hk'⟩ := hgo _ ⟨k, rfl, hk⟩
  exact ⟨_, inFunction_iff.mpr ⟨_, _, hmid', rfl⟩, k', rfl, hk'⟩

theorem Stance.Holds.bare (h : x.Holds v) : x.Holds { v with comments := [] } := by
  obtain ⟨h1, h2, h3, h4, h5, h6, h7⟩ := h.placed
  have hplaced : Placed { v with comments := [] } := ⟨h1, h2, h3, h4, h5, h6, h7⟩
  cases x with
  | anywhere => exact hplaced
  | behind => exact ⟨hplaced, h.2⟩
  | facing t => exact ⟨hplaced, h.2⟩

/-- Comments are taken where no semicolon is owed. -/
theorem tracks_takeComments : Tracks places x .settled takeComments takeComments x .settled := by
  intro s a t hs hm
  obtain ⟨rfl, rfl⟩ := Prod.mk.inj (Except.ok.inj hm)
  refine ⟨hs.bare, fun hfits => ?_⟩
  have hsettled : Outlook.settled.Holds places s.sight :=
    ⟨⟨hfits.1.noted, hfits.1.ahead⟩, hfits.2⟩
  refine ⟨hsettled, ?_⟩
  rintro _ ⟨k, rfl, hk⟩
  have hlevel := hk.level hsettled.2
  exact ⟨_, congrArg (fun texts => Except.ok (texts, _)) hlevel.comments,
    { k with comments := [] }, rfl,
    .inl ⟨hfits.2, hlevel.current, hlevel.lexer, hlevel.dialect, rfl⟩⟩

/-! ## Tokens -/

theorem advance_of {t : Token} {lx : Lexer} (h : s.lexer.next = (.ok t, lx)) :
    advance s = .ok (s.current, s.seeing (s.sight.after t lx)) := by
  simp only [advance, bind_ok (rfl : (get : Reading State) s = .ok (s, s)), h]
  rfl

theorem advance_inv {r : Token × State} (h : advance s = .ok r) :
    ∃ t lx, s.lexer.next = (.ok t, lx) ∧ r = (s.current, s.seeing (s.sight.after t lx)) := by
  rcases hnext : s.lexer.next with ⟨d | t, lx⟩
  · simp only [advance, bind_ok (rfl : (get : Reading State) s = .ok (s, s)), hnext] at h
    cases h
  · rw [advance_of hnext] at h
    exact ⟨t, lx, rfl, (Except.ok.inj h).symm⟩

/-- A token that is taken was looked at by both readings. Neither cares where it stands. -/
theorem tracks_advance {f f' : Token → Reading β} (hne : t.tag ≠ .endOfInput)
    (hf : Tracks places .behind c (f t) (f' t) z d)
    (hsame : ∀ start stop, f' (t.placed start stop) = f' t) :
    Tracks places (.facing t) b (advance >>= f) (advance >>= f') z d := by
  rintro s r u ⟨hs, rfl⟩ hrun
  obtain ⟨_, _, hmid, hend⟩ := bind_iff.mp hrun
  obtain ⟨t, lx, hnext, hr⟩ := advance_inv hmid
  obtain ⟨rfl, rfl⟩ := Prod.mk.inj hr
  obtain ⟨hu, hback⟩ := hf (s.seeing (s.sight.after t lx)) r u
    ⟨hs.after hnext, hs.behind hne⟩ hend
  refine ⟨hu, fun hfits => ?_⟩
  obtain ⟨hc, hgo⟩ := hback hfits
  have hsettled : Outlook.settled.Holds places s.sight := hc.fits.before hs hne hnext
  refine ⟨Outlook.of_settled hsettled, ?_⟩
  rintro _ ⟨k, rfl, hk⟩
  have hlevel := hk.level hsettled.2
  obtain ⟨t', lx', hnext', hbeside⟩ := hlevel.take hs hne hnext hc.fits
  obtain ⟨u', hend', hu'⟩ := hgo (s.hushed.seeing (k.after t' lx')) ⟨_, rfl, hbeside⟩
  refine ⟨u', ?_, hu'⟩
  have htake : advance (s.hushed.seeing k) = .ok (k.current, s.hushed.seeing (k.after t' lx')) :=
    advance_of hnext'
  obtain ⟨start, stop, hcurrent⟩ := hlevel.current
  rw [bind_ok htake, hcurrent]
  exact (congrFun (hsame start stop) _).trans hend'

/-- A question about a state whose answer does not depend on where its tokens stand. -/
def Placeless (f : State → Reading β) : Prop :=
  ∀ (s : State) (v : Sight) (start stop : Nat), v.lexer.dialect = s.lexer.dialect →
    f (s.hushed.seeing { v with current := s.current.placed start stop }) = f s

theorem Placeless.level {f : State → Reading β} {k : Sight} (hf : Placeless f)
    (hk : Level places s.sight k) : f (s.hushed.seeing k) = f s := by
  obtain ⟨start, stop, hcurrent⟩ := hk.current
  have hsame : { k with current := s.current.placed start stop } = k := by
    rw [show s.current.placed start stop = k.current from hcurrent.symm]
  have hself := hf s k start stop hk.dialect
  rwa [hsame] at hself

/-- A token that was looked at is taken then, so that both readings saw it. -/
theorem Tracks.seen {f f' : State → Reading β} {r : β} {u : State}
    (h : Tracks places (.facing s.current) .settled (f s) (f' s) z d) (hsame : Placeless f')
    (hs : x.Holds s.sight) (hrun : f s s = .ok (r, u)) : z.Holds u.sight
      ∧ (d.Holds places u.sight → b.Holds places s.sight
        ∧ ∀ s', Twin places s s' → ∃ u', f' s' s' = .ok (r, u') ∧ Twin places u u') := by
  obtain ⟨hu, hback⟩ := h s r u ⟨hs.placed, rfl⟩ hrun
  refine ⟨hu, fun hfits => ?_⟩
  obtain ⟨hsettled, hgo⟩ := hback hfits
  refine ⟨Outlook.of_settled hsettled, fun s' hs' => ?_⟩
  obtain ⟨u', hend, hu'⟩ := hgo s' hs'
  obtain ⟨k, rfl, hk⟩ := hs'
  exact ⟨u', (congrFun (hsame.level (hk.level hsettled.2)) _).trans hend, hu'⟩

/-- A look at a token that is taken then. -/
theorem tracks_look {f f' : State → Reading β}
    (hf : ∀ s, Tracks places (.facing s.current) .settled (f s) (f' s) z d)
    (hsame : Placeless f') : Tracks places x b (get >>= f) (get >>= f') z d :=
  fun s _ _ hs hrun => (hf s).seen hsame hs hrun

/-- A question about the current token. Either the token is taken then, so that no semicolon is
owed before it, or the reading goes on as it does at a semicolon. -/
theorem tracks_glance {f f' : State → Reading β} {q : Reading β}
    (hf : ∀ s, Tracks places (.facing s.current) .settled (f s) (f' s) z d
      ∨ Tracks places x b (f s) (f' s) z d ∧ f' s = q)
    (hq : ∀ (s : State) (v : Sight), v.current.tag = .semicolon → f' (s.hushed.seeing v) = q)
    (hsame : Placeless f') : Tracks places x b (get >>= f) (get >>= f') z d := by
  intro s r u hs hrun
  rcases hf s with htakes | ⟨hquits, hsq⟩
  · exact htakes.seen hsame hs hrun
  · obtain ⟨hu, hback⟩ := hquits s r u hs hrun
    refine ⟨hu, fun hfits => (hback hfits).imp_right fun hgo s' hs' => ?_⟩
    obtain ⟨u', hend, hu'⟩ := hgo s' hs'
    obtain ⟨k, rfl, hk⟩ := hs'
    have hsees : f' (s.hushed.seeing k) = f' s :=
      hk.elim (fun hk => hsame.level hk.2) fun hk => (hq s k hk.2.semicolon).trans hsq.symm
    exact ⟨u', (congrFun hsees _).trans hend, hu'⟩

/-- A question that the text does not answer, but maybe its dialect. -/
theorem tracks_ask {f f' : State → Reading β} (hf : ∀ s, Tracks places x b (f s) (f' s) z d)
    (hsame : ∀ (s : State) (v : Sight), v.lexer.dialect = s.lexer.dialect →
      f' (s.hushed.seeing v) = f' s) :
    Tracks places x b (get >>= f) (get >>= f') z d := by
  intro s r u hs hrun
  obtain ⟨hu, hback⟩ := hf s s r u hs hrun
  refine ⟨hu, fun hfits => (hback hfits).imp_right fun hgo s' hs' => ?_⟩
  obtain ⟨u', hend, hu'⟩ := hgo s' hs'
  obtain ⟨k, rfl, hk⟩ := hs'
  exact ⟨u', (congrFun (hsame s k hk.dialect) _).trans hend, hu'⟩

theorem tracks_check {f f' : Bool → Reading β} {tag : Tag} (htag : tag ≠ .semicolon)
    (hyes : ∀ t : Token, t.tag = tag → Tracks places (.facing t) .settled (f true) (f' true) z d)
    (hno : Tracks places x b (f false) (f' false) z d) :
    Tracks places x b (check tag >>= f) (check tag >>= f') z d := by
  change Tracks places x b (get >>= fun s => f (s.current.tag == tag))
    (get >>= fun s => f' (s.current.tag == tag)) z d
  refine tracks_glance (q := f' false) (fun s => ?_) (fun s v hv => ?_) fun _ _ _ _ _ => rfl
  · by_cases h : s.current.tag = tag
    · have hyes := hyes s.current h
      rw [← beq_iff_eq.mpr h] at hyes
      exact .inl hyes
    · rw [beq_eq_false_iff_ne.mpr h]
      exact .inr ⟨hno, rfl⟩
  · have hsemicolon : (v.current.tag == tag) = false := by
      rw [hv]
      exact beq_eq_false_iff_ne.mpr htag.symm
    exact congrArg f' hsemicolon

theorem tracks_ifCheck {yes no yes' no' : Reading β} {tag : Tag} (htag : tag ≠ .semicolon)
    (hyes : ∀ t : Token, t.tag = tag → Tracks places (.facing t) .settled yes yes' z d)
    (hno : Tracks places x b no no' z d) :
    Tracks places x b (check tag >>= fun b => if b = true then yes else no)
      (check tag >>= fun b => if b = true then yes' else no') z d :=
  tracks_check htag hyes hno

/-- A question about the current token whose answer makes no difference. -/
theorem tracks_checkInVain {f f' : Bool → Reading β} {tag : Tag} {m m' : Reading β}
    (h : Tracks places x b m m' z d) (hf : ∀ b, f b = m) (hf' : ∀ b, f' b = m') :
    Tracks places x b (check tag >>= f) (check tag >>= f') z d := by
  have hself : check tag >>= f = m := funext fun s => congrFun (hf (s.current.tag == tag)) s
  have hself' : check tag >>= f' = m' := funext fun s => congrFun (hf' (s.current.tag == tag)) s
  rwa [hself, hself']

theorem accept_bind {f : Bool → Reading β} {tag : Tag} : accept tag >>= f
    = check tag >>= fun b => if b = true then advance >>= fun _ => f true else f false := by
  rw [accept, bind_assoc]
  congr 1
  funext b
  cases b with
  | true => simp only [if_true, bind_assoc, pure_bind]
  | false => rfl

/-- A token that is taken if it has a tag. -/
theorem tracks_ifAccept {yes no yes' no' : Reading β} {tag : Tag} (htag : tag ≠ .semicolon)
    (hend : tag ≠ .endOfInput) (hyes : Tracks places .behind c yes yes' z d)
    (hno : Tracks places x b no no' z d) :
    Tracks places x b (accept tag >>= fun b => if b = true then yes else no)
      (accept tag >>= fun b => if b = true then yes' else no') z d := by
  have htake : ∀ t : Token, t.tag = tag → Tracks places (.facing t) .settled
      (advance >>= fun _ => yes) (advance >>= fun _ => yes') z d := fun t ht =>
    tracks_advance (ht ▸ hend) hyes fun _ _ => rfl
  rw [accept_bind, accept_bind]
  exact tracks_ifCheck htag htake hno

/-- A token that is taken if it has a tag, where no semicolon is owed. -/
theorem tracks_acceptSettled {f f' : Bool → Reading β} {tag : Tag} (hend : tag ≠ .endOfInput)
    (hyes : Tracks places .behind c (f true) (f' true) z d)
    (hno : Tracks places .anywhere .settled (f false) (f' false) z d) :
    Tracks places x b (accept tag >>= f) (accept tag >>= f') z d := by
  rw [accept_bind, accept_bind]
  change Tracks places x b
    (get >>= fun s => if (s.current.tag == tag) = true then advance >>= fun _ => f true
      else f false)
    (get >>= fun s => if (s.current.tag == tag) = true then advance >>= fun _ => f' true
      else f' false) z d
  refine tracks_look (fun s => ?_) fun _ _ _ _ _ => rfl
  by_cases h : s.current.tag = tag
  · rw [if_pos (beq_iff_eq.mpr h), if_pos (beq_iff_eq.mpr h)]
    exact tracks_advance (h ▸ hend) hyes fun _ _ => rfl
  · rw [if_neg (by simpa using h), if_neg (by simpa using h)]
    exact hno.mono (fun _ h => h.placed) (fun _ h => h) (fun _ h => h) fun _ h => h

/-- A token that must have a tag and is taken. -/
theorem tracks_expect {f f' : Token → Reading β} {tag : Tag} {what : Expected}
    (hend : tag ≠ .endOfInput) (hf : ∀ t, Tracks places .behind c (f t) (f' t) z d)
    (hsame : ∀ t start stop, f' (Token.placed t start stop) = f' t) :
    Tracks places x b (expect tag what >>= f) (expect tag what >>= f') z d := by
  change Tracks places x b
    (get >>= fun s => (if (s.current.tag == tag) = true then advance
      else fail (.missing what)) >>= f)
    (get >>= fun s => (if (s.current.tag == tag) = true then advance
      else fail (.missing what)) >>= f') z d
  refine tracks_look (fun s => ?_) fun _ _ _ _ _ => rfl
  by_cases h : s.current.tag = tag
  · rw [if_pos (beq_iff_eq.mpr h)]
    exact tracks_advance (h ▸ hend) (hf _) (hsame _)
  · rw [if_neg (by simpa using h)]
    exact tracks_fails fun _ => ⟨_, rfl⟩

theorem rescan_of {t : Token} {lx : Lexer} (h : s.lexer.rescan s.current = (.ok t, lx)) :
    rescan s = .ok ((), s.seeing (s.sight.again t lx)) := by
  simp only [rescan, bind_ok (rfl : (get : Reading State) s = .ok (s, s)), h]
  rfl

theorem rescan_inv {r : Unit × State} (h : rescan s = .ok r) :
    ∃ t lx, s.lexer.rescan s.current = (.ok t, lx) ∧ r = ((), s.seeing (s.sight.again t lx)) := by
  rcases hnext : s.lexer.rescan s.current with ⟨d | t, lx⟩
  · simp only [rescan, bind_ok (rfl : (get : Reading State) s = .ok (s, s)), hnext] at h
    cases h
  · rw [rescan_of hnext] at h
    exact ⟨t, lx, rfl, (Except.ok.inj h).symm⟩

/-- A slash is read again, to be taken then. -/
theorem tracks_rescan (hslash : t.isSlash = true) :
    Tracks places (.facing t) .settled rescan rescan .anywhere .settled := by
  rintro s r u ⟨hs, rfl⟩ hrun
  obtain ⟨t, lx, hrescan, hr⟩ := rescan_inv hrun
  obtain ⟨rfl, rfl⟩ := Prod.mk.inj hr
  refine ⟨hs.again hslash hrescan, fun hfits => ?_⟩
  have hsettled : Outlook.settled.Holds places s.sight :=
    ⟨hfits.1.unread hs hslash hrescan, hfits.2⟩
  refine ⟨hsettled, ?_⟩
  rintro _ ⟨k, rfl, hk⟩
  obtain ⟨t', lx', hrescan', hlevel⟩ :=
    (hk.level hsettled.2).again hs hslash hrescan hfits.1
  exact ⟨_, rescan_of hrescan', _, rfl, .inl ⟨hfits.2, hlevel⟩⟩

/-! ## The end of a statement -/

theorem endStatement_semicolon (h : s.current.tag = .semicolon) :
    endStatement s = (advance >>= fun _ => pure ()) s := by
  simp only [endStatement, bind_ok (rfl : (get : Reading State) s = .ok (s, s)), h,
    beq_self_eq_true, if_true]

/-- The state behind a statement that ended without its semicolon. -/
def State.unended (s : State) : State :=
  { s with
    omitted := s.omitted ++ [s.previousStop]
    concerns := s.concerns ++ [(.missingSemicolon, s.previousLine)] }

theorem endStatement_omitted {r : Unit × State} (hs : s.current.tag ≠ .semicolon)
    (h : endStatement s = .ok r) : r = ((), s.unended) := by
  simp only [endStatement, bind_ok (rfl : (get : Reading State) s = .ok (s, s)),
    beq_eq_false_iff_ne.mpr hs, Bool.false_eq_true, if_false] at h
  split at h
  · exact (Except.ok.inj h).symm
  · cases h

theorem hushed_unended (s : State) (v : Sight) : s.unended.hushed.seeing v = s.hushed.seeing v := by
  simp [State.hushed, State.unended, State.seeing, List.filter_append]

theorem Sight.Placed.unended (h : s.sight.Placed) : s.unended.sight.Placed := by
  refine ⟨h.position, h.comments, h.start, h.stop, h.token, h.slash, fun p hp => ?_⟩
  rcases List.mem_append.mp hp with hp | hp
  · exact h.omitted p hp
  · exact (List.mem_singleton.mp hp).le

theorem Sight.Fits.ended (h : s.unended.sight.Fits places) : s.sight.Fits places := by
  refine ⟨fun p hp => h.noted p (List.mem_append_left _ hp), fun p hp => ?_⟩
  rcases h.ahead p hp with hin | hlater
  · exact (List.mem_append.mp hin).imp_right fun hp => .inl (List.mem_singleton.mp hp)
  · exact .inr hlater

/-- Where a statement ends without a semicolon, the second reading takes the one put in there. -/
theorem tracks_endStatement :
    Tracks places .behind .fits endStatement endStatement .anywhere .settled := by
  intro s r t hs hrun
  by_cases hsemicolon : s.current.tag = .semicolon
  · have htakes : Tracks places (.facing s.current) .settled (advance >>= fun _ => pure ())
        (advance >>= fun _ => pure ()) .anywhere .settled :=
      tracks_advance (c := .settled) (by simp [hsemicolon]) (blind_pure ()).settles fun _ _ => rfl
    rw [endStatement_semicolon hsemicolon] at hrun
    obtain ⟨ht, hback⟩ := htakes s r t ⟨hs.placed, rfl⟩ hrun
    refine ⟨ht, fun hfits => ?_⟩
    obtain ⟨hsettled, hgo⟩ := hback hfits
    refine ⟨hsettled.1, ?_⟩
    rintro _ ⟨k, rfl, hk⟩
    obtain ⟨start, stop, hcurrent⟩ := (hk.level hsettled.2).current
    have hsees : (s.hushed.seeing k).current.tag = .semicolon :=
      (congrArg Token.tag hcurrent).trans hsemicolon
    rw [endStatement_semicolon hsees]
    exact hgo _ ⟨k, rfl, hk⟩
  · obtain ⟨rfl, rfl⟩ := Prod.mk.inj (endStatement_omitted hsemicolon hrun)
    refine ⟨hs.1.unended, fun hfits => ⟨hfits.1.ended, ?_⟩⟩
    rintro _ ⟨k, rfl, hk⟩
    have howes : s.sight.Owes places :=
      ⟨hfits.1.noted _ (List.mem_append_right _ (List.mem_singleton_self _)), hs.2⟩
    have hfaces := (hk.resolve_left fun h => h.1 howes).2
    obtain ⟨t, lx, hnext, hlevel⟩ := hfaces.behind
    have htake : advance (s.hushed.seeing k) = .ok (k.current, s.hushed.seeing (k.after t lx)) :=
      advance_of hnext
    refine ⟨s.unended.hushed.seeing (k.after t lx), ?_, k.after t lx, rfl, .inl ⟨hfits.2, ?_⟩⟩
    · rw [endStatement_semicolon hfaces.semicolon, bind_ok htake, hushed_unended]
      rfl
    · exact ⟨hlevel.current, hlevel.lexer, hlevel.dialect, hlevel.comments⟩

end
end ScriptPress.Grammar
