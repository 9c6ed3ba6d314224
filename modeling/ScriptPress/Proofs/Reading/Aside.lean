import ScriptPress.Proofs.Reading.Ensures

/-! # Steps that leave something aside

Most steps of a reading take tokens, comments and concerns and leave all else as it was. What they
leave is stated once, for every view of a state that tokens play no part in. Concerns about
statements without an effect are apart from the others: no step over tokens alone adds one.
-/
namespace ScriptPress.Grammar
variable {α β γ : Type} {view : State → γ}

/-- A view of a state that tokens, comments and concerns play no part in. -/
class Aside (view : State → γ) : Prop where
  same : ∀ (s s' : State), s'.scope = s.scope → s'.targets = s.targets → s'.labels = s.labels →
    s'.pendingLabels = s.pendingLabels → s'.jumps = s.jumps → s'.nextId = s.nextId →
    view s' = view s

/-- The lines of the concerns about statements without an effect. -/
def State.reported (s : State) : List Nat :=
  (s.concerns.filter (·.1 == .noSideEffects)).map (·.2)

/-- A view of a state that tokens and comments play no part in, and of the concerns only those about
statements without an effect. -/
class Heedless (view : State → γ) : Prop where
  same : ∀ (s s' : State), s'.scope = s.scope → s'.targets = s.targets → s'.labels = s.labels →
    s'.pendingLabels = s.pendingLabels → s'.jumps = s.jumps → s'.nextId = s.nextId →
    s'.reported = s.reported → view s' = view s

instance [Aside view] : Heedless view where
  same s s' hscope htargets hlabels hpending hjumps hnext _ :=
    Aside.same s s' hscope htargets hlabels hpending hjumps hnext

instance : Heedless State.reported where
  same _ _ _ _ _ _ _ _ h := h

/-- A step that leaves a view as it was. -/
def Preserves (view : State → γ) (m : Reading α) : Prop :=
  ∀ s, Ensures False m s fun _ s' => view s' = view s

/-! ## Rules -/

theorem preserves_pure (a : α) : Preserves view (pure a : Reading α) := fun _ => ensures_pure rfl

theorem preserves_fail (p : Problem) : Preserves view (fail p : Reading α) := fun _ => ensures_fail

theorem preserves_failAt (line : Nat) (p : Problem) :
    Preserves view (failAt line p : Reading α) := fun _ => ensures_failAt

theorem preserves_get {f : State → Reading α} (h : ∀ s, Preserves view (f s)) :
    Preserves view (get >>= f) := fun s => ensures_get (h s s)

theorem preserves_check {tag : Tag} {f : Bool → Reading α} (h : ∀ b, Preserves view (f b)) :
    Preserves view (check tag >>= f) := fun s => ensures_check (h _ s)

theorem Preserves.bind {m : Reading α} {f : α → Reading β} (hm : Preserves view m)
    (hf : ∀ a, Preserves view (f a)) : Preserves view (m >>= f) := fun s =>
  (hm s).bind fun a s' h => (hf a s').mono fun _ _ h' => h'.trans h

theorem preserves_modify {change : State → State} (h : ∀ s, view (change s) = view s) :
    Preserves view (modify change : Reading Unit) := fun s => ensures_of_ok rfl (h s)

theorem preserves_iterate {step : α → Reading (Turn α β)} (h : ∀ a, Preserves view (step a))
    (n : Nat) (a : α) : Preserves view (iterate step n a) := fun s =>
  ensures_iterate (I := fun _ s' => view s' = view s) (Q := fun _ s' => view s' = view s)
    (fun a s₁ h₁ => (h a s₁).mono fun turn _ h₂ => by
      cases turn <;> exact h₂.trans h₁) n rfl

/-- Where a jump goes is told by the state and changes nothing. -/
theorem preserves_destination (tag : Tag) (label? : Option String) (line : Nat) :
    Preserves view (destination tag label? line) := by
  refine preserves_get fun s => ?_
  cases label? with
  | none =>
    dsimp only
    split
    · split
      · exact preserves_pure _
      · exact preserves_failAt _ _
    · split
      · exact preserves_pure _
      · exact preserves_failAt _ _
  | some name =>
    dsimp only
    split
    · exact preserves_failAt _ _
    · split
      · exact preserves_pure _
      · split
        · exact preserves_pure _
        · exact preserves_failAt _ _

/-! ## Tokens -/

theorem preserves_warn [Aside view] (c : Concern) (line : Nat) : Preserves view (warn c line) :=
  preserves_modify fun _ => Aside.same _ _ rfl rfl rfl rfl rfl rfl

section
variable [Heedless view]

theorem preserves_advance : Preserves view advance := by
  intro s
  refine ensures_get ?_
  split
  · exact ensures_fails rfl
  · exact ensures_set (ensures_pure (Heedless.same _ _ rfl rfl rfl rfl rfl rfl rfl))

theorem preserves_expect (tag : Tag) (what : Expected) : Preserves view (expect tag what) := by
  refine preserves_check fun b => ?_
  cases b with
  | true => exact preserves_advance
  | false => exact preserves_fail _

theorem preserves_accept (tag : Tag) : Preserves view (accept tag) := by
  refine preserves_check fun b => ?_
  cases b with
  | true => exact preserves_advance.bind fun _ => preserves_pure _
  | false => exact preserves_pure _

theorem preserves_rescan : Preserves view rescan := by
  intro s
  refine ensures_get ?_
  split
  · exact ensures_fails rfl
  · exact ensures_of_ok rfl (Heedless.same _ _ rfl rfl rfl rfl rfl rfl rfl)

theorem preserves_takeComments : Preserves view takeComments := fun s =>
  ensures_of_ok (rfl : takeComments s = .ok (s.comments, { s with comments := [] }))
    (Heedless.same _ _ rfl rfl rfl rfl rfl rfl rfl)

theorem preserves_warn_other {c : Concern} (h : c ≠ .noSideEffects) (line : Nat) :
    Preserves view (warn c line) := by
  refine preserves_modify fun s => Heedless.same _ _ rfl rfl rfl rfl rfl rfl ?_
  simp [State.reported, h]

theorem preserves_omitSemicolon : Preserves view omitSemicolon :=
  preserves_modify fun _ => Heedless.same _ _ rfl rfl rfl rfl rfl rfl rfl

theorem preserves_endStatement : Preserves view endStatement := by
  refine preserves_get fun s => ?_
  split
  · exact preserves_advance.bind fun _ => preserves_pure _
  split
  · exact preserves_omitSemicolon.bind fun _ => preserves_warn_other (by nofun) _
  · exact preserves_fail _

theorem preserves_warnOfKeyword (name : String) (line : Nat) :
    Preserves view (warnOfKeyword name line) := by
  refine preserves_get fun s => ?_
  split
  · exact preserves_warn_other (by nofun) _
  · exact preserves_pure _

theorem preserves_declaredName (what : Expected) : Preserves view (declaredName what) := by
  refine preserves_get fun s => ?_
  dsimp only
  split
  · exact preserves_advance.bind fun t => (preserves_warnOfKeyword _ _).bind
      fun _ => preserves_pure _
  · exact preserves_fail _
  · exact preserves_fail _

/-! ## Names that are no trees -/

theorem preserves_propertyName : Preserves view propertyName := by
  refine preserves_get fun s => ?_
  dsimp only
  split
  · exact preserves_advance.bind fun _ => preserves_pure _
  · exact preserves_advance.bind fun t => (preserves_warn_other (by nofun) _).bind
      fun _ => preserves_pure _
  · exact preserves_fail _

theorem preserves_parameters {g : Grammar} : Preserves view g.parameters := by
  refine preserves_check fun b => ?_
  cases b with
  | true => exact preserves_pure _
  | false =>
    refine preserves_iterate (fun names => ?_) _ _
    refine ((preserves_declaredName .formalParameter).bind fun _ => preserves_pure _).bind
      fun name => (preserves_accept .comma).bind fun b => ?_
    cases b with
    | true => exact preserves_pure _
    | false => exact preserves_pure _

theorem preserves_functionName (role : FunctionRole) : Preserves view (functionName role) := by
  refine preserves_get fun s => ?_
  dsimp only
  split
  · exact (preserves_declaredName _).bind fun _ => preserves_pure _
  split
  · exact preserves_pure _
  · exact preserves_fail _

theorem preserves_jumpLabel : Preserves view jumpLabel := by
  refine preserves_get fun s => ?_
  dsimp only
  split
  · exact preserves_advance.bind fun _ => preserves_pure _
  · exact preserves_pure _

end
end ScriptPress.Grammar
