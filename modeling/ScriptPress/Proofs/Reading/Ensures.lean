import ScriptPress.Grammar.Script

/-! # Statements about readings

What a reading ensures when it is run from a state. A strict statement says in addition that the
reading does not stop at a problem. The rules follow the steps of a reading from the front.
-/
namespace ScriptPress.Grammar
variable {α β : Type} {strict : Prop} {s : State}

/-- Run from a state, a reading ends with a value and a state as described. -/
def Ensures (strict : Prop) (m : Reading α) (s : State) (Q : α → State → Prop) : Prop :=
  match m s with
  | .ok (a, s') => Q a s'
  | .error _ => ¬strict

theorem ensures_ok {m : Reading α} {Q : α → State → Prop} {a : α} {s' : State}
    (h : Ensures strict m s Q) (hm : m s = .ok (a, s')) : Q a s' := by
  unfold Ensures at h
  rwa [hm] at h

theorem ensures_of_ok {m : Reading α} {Q : α → State → Prop} {a : α} {s' : State}
    (hm : m s = .ok (a, s')) (h : Q a s') : Ensures strict m s Q := by
  unfold Ensures
  rwa [hm]

/-- A statement that is not strict only speaks of readings that end well. -/
theorem ensures_iff {m : Reading α} {Q : α → State → Prop} :
    Ensures False m s Q ↔ ∀ a s', m s = .ok (a, s') → Q a s' := by
  unfold Ensures
  constructor
  · intro h a s' hm
    rwa [hm] at h
  · intro h
    split
    · next a s' hm => exact h a s' hm
    · exact fun h => h

theorem Ensures.mono {m : Reading α} {P Q : α → State → Prop} (h : Ensures strict m s P)
    (hPQ : ∀ a s', P a s' → Q a s') : Ensures strict m s Q := by
  unfold Ensures at h ⊢
  split
  · next a s' hm =>
    rw [hm] at h
    exact hPQ a s' h
  · next d hm => rwa [hm] at h

theorem Ensures.and {m : Reading α} {P Q : α → State → Prop} (h : Ensures strict m s P)
    (h' : Ensures strict m s Q) : Ensures strict m s fun a s' => P a s' ∧ Q a s' := by
  unfold Ensures at h h' ⊢
  split
  · next a s' hm =>
    rw [hm] at h h'
    exact ⟨h, h'⟩
  · next d hm => rwa [hm] at h

theorem bind_ok {m : Reading α} {f : α → Reading β} {a : α} {s' : State}
    (h : m s = .ok (a, s')) : (m >>= f) s = f a s' := by
  change (m s >>= fun p => f p.1 p.2) = f a s'
  rw [h]
  rfl

theorem bind_error {m : Reading α} {f : α → Reading β} {d : Diagnostic}
    (h : m s = .error d) : (m >>= f) s = .error d := by
  change (m s >>= fun p => f p.1 p.2) = .error d
  rw [h]
  rfl

theorem Ensures.bind {m : Reading α} {f : α → Reading β} {P : α → State → Prop}
    {Q : β → State → Prop} (h : Ensures strict m s P)
    (hf : ∀ a s', P a s' → Ensures strict (f a) s' Q) : Ensures strict (m >>= f) s Q := by
  unfold Ensures at h
  split at h
  · next a s' hm =>
    have hgo := hf a s' h
    unfold Ensures at hgo ⊢
    rwa [bind_ok hm]
  · next d hm =>
    unfold Ensures
    rwa [bind_error hm]

section
variable {Q : β → State → Prop}

theorem ensures_pure {b : β} (h : Q b s) : Ensures strict (pure b) s Q := h

theorem ensures_let {a : α} {f : α → Reading β} (h : Ensures strict (f a) s Q) :
    Ensures strict (pure a >>= f) s Q := h

theorem ensures_fails {m : Reading β} {d : Diagnostic} (h : m s = .error d) :
    Ensures False m s Q := by
  unfold Ensures
  rw [h]
  exact fun h => h

theorem ensures_fail {p : Problem} : Ensures False (fail p) s Q := ensures_fails rfl

theorem ensures_failAt {line : Nat} {p : Problem} : Ensures False (failAt line p) s Q :=
  ensures_fails rfl

theorem ensures_get {f : State → Reading β} (h : Ensures strict (f s) s Q) :
    Ensures strict (get >>= f) s Q := h

theorem ensures_unexpected : Ensures False unexpected s Q := by
  rw [unexpected]
  refine ensures_get ?_
  dsimp only
  split <;> exact ensures_fail

theorem ensures_modify {change : State → State} {f : Unit → Reading β}
    (h : Ensures strict (f ()) (change s) Q) : Ensures strict (modify change >>= f) s Q := h

theorem ensures_set {s' : State} {f : Unit → Reading β} (h : Ensures strict (f ()) s' Q) :
    Ensures strict (set s' >>= f) s Q := h

theorem ensures_check {tag : Tag} {f : Bool → Reading β}
    (h : Ensures strict (f (s.current.tag == tag)) s Q) :
    Ensures strict (check tag >>= f) s Q := h

end

/-- A question about the current token, one case at a time. -/
theorem ensures_ifCheck {tag : Tag} {yes no : Reading β} {Q : β → State → Prop}
    (hyes : s.current.tag = tag → Ensures strict yes s Q)
    (hno : s.current.tag ≠ tag → Ensures strict no s Q) :
    Ensures strict (check tag >>= fun b => if b = true then yes else no) s Q := by
  refine ensures_check ?_
  by_cases h : s.current.tag = tag
  · rw [if_pos (by simpa using h)]
    exact hyes h
  · rw [if_neg (by simpa using h)]
    exact hno h

/-- What a turn of a loop leads to. -/
def Turn.Leads (I : α → State → Prop) (Q : β → State → Prop) : Turn α β → State → Prop
  | .again a => I a
  | .done b => Q b

/-- What the turn of a loop gives, to the next turn or for good. -/
def Turn.Gives (P : α → Prop) (Q : β → Prop) : Turn α β → Prop
  | .again a => P a
  | .done b => Q b

/-- What holds before each turn of a loop holds at its end. -/
theorem ensures_iterate {step : α → Reading (Turn α β)} {I : α → State → Prop}
    {Q : β → State → Prop} (hstep : ∀ a s, I a s → Ensures False (step a) s (Turn.Leads I Q))
    (n : Nat) {a : α} (h : I a s) : Ensures False (iterate step n a) s Q := by
  induction n generalizing a s with
  | zero => exact ensures_unexpected
  | succ n ih =>
    rw [iterate]
    refine (hstep a s h).bind fun turn s' hturn => ?_
    cases turn with
    | again a' => exact ih hturn
    | done b => exact ensures_pure hturn

end ScriptPress.Grammar
