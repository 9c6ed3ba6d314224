import ScriptPress.Proofs.Dialects.Tokens
import ScriptPress.Proofs.Insertion.Course

/-! # Readings in later dialects

Rules for a reading that ends well and the same reading in a later dialect. Whether the later
dialect has a meaning for one of the names is known only where they were all met, so that a rule
looks back from the end of a reading to its beginning.
-/
namespace ScriptPress.Grammar

namespace State

/-- The state of a reading that goes on in another dialect. -/
def raised (w : Dialect) (s : State) : State := { s with lexer := s.lexer.raised w }

/-- A dialect suits what was read so far: it is the reading's own or a later one, and no name that
was met is a keyword of it. -/
def Suits (w : Dialect) (s : State) : Prop :=
  w.atLeast s.lexer.dialect = true
    ∧ ∀ t ∈ s.current :: s.taken, t.tag = .identifier → keyword? t.shown w = none

end State

/-- From a state, a reading that ends well with names that suit a dialect began with such names,
and goes the same way in that dialect. -/
def RisesAt {α : Type} (w : Dialect) (s : State) (m : Reading α) : Prop :=
  ∀ a t, m s = .ok (a, t) → t.Suits w → s.Suits w ∧ m (s.raised w) = .ok (a, t.raised w)

def Rises {α : Type} (w : Dialect) (m : Reading α) : Prop := ∀ s, RisesAt w s m

section
variable {α β : Type} {w : Dialect} {m : Reading α} {f : α → Reading β} {s : State}

/-! ## Rules for the shape of a reading -/

theorem RisesAt.bind (hm : RisesAt w s m) (hf : ∀ a, Rises w (f a)) : RisesAt w s (m >>= f) := by
  intro b u hrun hu
  obtain ⟨a, t, hmid, hend⟩ := bind_iff.mp hrun
  obtain ⟨ht, hend'⟩ := hf a t b u hend hu
  obtain ⟨hs, hmid'⟩ := hm a t hmid ht
  exact ⟨hs, (bind_ok hmid').trans hend'⟩

theorem Rises.bind (hm : Rises w m) (hf : ∀ a, Rises w (f a)) : Rises w (m >>= f) :=
  fun s => (hm s).bind hf

theorem rises_pure (a : α) : Rises w (pure a : Reading α) := by
  intro s b t hrun ht
  obtain ⟨rfl, rfl⟩ := Prod.mk.inj (Except.ok.inj hrun)
  exact ⟨ht, rfl⟩

/-- A reading that always ends at a problem. -/
theorem rises_fails (h : ∀ s, ∃ d, m s = .error d) : Rises w m := by
  intro s a t hrun
  obtain ⟨d, hd⟩ := h s
  rw [hd] at hrun
  cases hrun

theorem rises_fail (p : Problem) : Rises w (fail p : Reading α) :=
  rises_fails fun _ => ⟨_, rfl⟩

theorem rises_failAt (line : Nat) (p : Problem) : Rises w (failAt line p : Reading α) :=
  rises_fails fun _ => ⟨_, rfl⟩

theorem rises_unexpected : Rises w (unexpected : Reading α) := by
  intro s a t hrun
  exact (ensures_iff.mp (ensures_unexpected (Q := fun _ _ => False)) a t hrun).elim

/-- A question about the state that is not about its dialect. -/
theorem rises_ask {f : State → Reading β} (hf : ∀ s, RisesAt w s (f s))
    (hsame : ∀ s, f (s.raised w) = f s) : Rises w (get >>= f) := by
  intro s b u hrun hu
  obtain ⟨hs, hrun'⟩ := hf s b u hrun hu
  refine ⟨hs, ?_⟩
  change f (s.raised w) (s.raised w) = _
  rw [hsame, hrun']

theorem rises_modify {change : State → State}
    (hsuits : ∀ s, (change s).Suits w → s.Suits w)
    (hraised : ∀ s, change (s.raised w) = (change s).raised w) : Rises w (modify change) := by
  intro s a t hrun ht
  obtain ⟨rfl, rfl⟩ := Prod.mk.inj (Except.ok.inj hrun)
  refine ⟨hsuits s ht, ?_⟩
  change Except.ok ((), change (s.raised w)) = _
  rw [hraised]

theorem rises_iterate {step : α → Reading (Turn α β)} (h : ∀ a, Rises w (step a)) (fuel : Nat)
    (a : α) : Rises w (iterate step fuel a) := by
  induction fuel generalizing a with
  | zero => exact rises_unexpected
  | succ fuel ih =>
    apply (h a).bind
    intro turn
    cases turn with
    | again a => exact ih a
    | done b => exact rises_pure b

theorem RisesAt.ite {yes no : Reading β} {b : Bool} (hyes : b = true → RisesAt w s yes)
    (hno : RisesAt w s no) : RisesAt w s (if b = true then yes else no) := by
  split
  · next hb => exact hyes hb
  · exact hno

theorem Rises.ite {yes no : Reading β} {b : Bool} (hyes : Rises w yes) (hno : Rises w no) :
    Rises w (if b = true then yes else no) :=
  fun s => .ite (fun _ => hyes s) (hno s)

/-- A reading in a state that was changed for it, where neither the change nor the one back has to
do with the text. -/
theorem rises_within (enter : State → State) (leave : State → State → State) (hm : Rises w m)
    (hf : ∀ a, Rises w (f a)) (hin : ∀ s, enter (s.raised w) = (enter s).raised w)
    (hout : ∀ s t, leave (s.raised w) (t.raised w) = (leave s t).raised w)
    (hsuits : ∀ s t, ((enter s).Suits w → s.Suits w) ∧ ((leave s t).Suits w → t.Suits w)) :
    Rises w (within enter leave m f) := by
  intro s b u hrun hu
  obtain ⟨a, t, hmid, hend⟩ := within_iff.mp hrun
  obtain ⟨ht, hend'⟩ := hf a (leave s t) b u hend hu
  obtain ⟨hs, hmid'⟩ := hm (enter s) a t hmid ((hsuits s t).2 ht)
  refine ⟨(hsuits s t).1 hs, within_iff.mpr ⟨a, t.raised w, ?_, ?_⟩⟩
  · rw [hin, hmid']
  · rw [hout, hend']

/-! ## Tokens -/

theorem rises_check (tag : Tag) : Rises w (check tag) :=
  rises_ask (fun _ => rises_pure _ _) fun _ => rfl

theorem rises_ifCheck {yes no : Reading β} {tag : Tag} (hyes : Rises w yes) (hno : Rises w no) :
    Rises w (check tag >>= fun b => if b = true then yes else no) :=
  (rises_check tag).bind fun _ => hyes.ite hno

theorem rises_advance : Rises w advance := by
  intro s a u hrun hu
  obtain ⟨t, lx, hnext, hr⟩ := advance_inv hrun
  obtain ⟨rfl, rfl⟩ := Prod.mk.inj hr
  obtain ⟨hlater, hnames⟩ := hu
  have hlater : w.atLeast s.lexer.dialect = true := by
    rw [← (Lexer.next_read hnext).like.1]
    exact hlater
  have hnext' : (s.raised w).lexer.next = (.ok t, lx.raised w) :=
    Lexer.next_later hlater hnext (hnames t List.mem_cons_self)
  constructor
  · exact ⟨hlater, fun t ht => hnames t (List.mem_cons_of_mem _ ht)⟩
  · rw [advance_of hnext']
    rfl

/-- A slash is read again. It was no name, and is none. -/
theorem risesAt_rescan (hslash : s.current.isSlash = true) : RisesAt w s rescan := by
  intro a u hrun hu
  obtain ⟨t, lx, hnext, hr⟩ := rescan_inv hrun
  obtain ⟨rfl, rfl⟩ := Prod.mk.inj hr
  obtain ⟨hlater, hnames⟩ := hu
  have hlater : w.atLeast s.lexer.dialect = true := by
    rw [← Lexer.rescan_dialect hnext]
    exact hlater
  constructor
  · refine ⟨hlater, fun t' ht' htag => ?_⟩
    rcases List.mem_cons.mp ht' with rfl | ht'
    · simp [Token.isSlash, htag] at hslash
    · exact hnames t' (List.mem_cons_of_mem _ ht') htag
  · have hnext' : (s.raised w).lexer.rescan (s.raised w).current = (.ok t, lx.raised w) :=
      Lexer.rescan_later hlater hnext
    rw [rescan_of hnext']
    rfl

theorem rises_expect (tag : Tag) (what : Expected) : Rises w (expect tag what) :=
  rises_ifCheck rises_advance (rises_fail _)

theorem rises_accept (tag : Tag) : Rises w (accept tag) :=
  rises_ifCheck (rises_advance.bind fun _ => rises_pure _) (rises_pure _)

theorem rises_warn (c : Concern) (line : Nat) : Rises w (warn c line) :=
  rises_modify (fun _ h => h) fun _ => rfl

theorem rises_omitSemicolon : Rises w omitSemicolon :=
  rises_modify (fun _ h => h) fun _ => rfl

theorem rises_endStatement : Rises w endStatement := by
  refine rises_ask (fun s => .ite (fun _ => ?_) (.ite (fun _ => ?_) ?_)) fun _ => rfl
  · exact (rises_advance.bind fun _ => rises_pure _) s
  · exact (rises_omitSemicolon.bind fun _ => rises_warn _ _) s
  · exact rises_fail _ s

/-! ## Names -/

theorem warnOfKeyword_eq (name : String) (line : Nat) (s : State) : warnOfKeyword name line s
    = (laterKeyword? name s.lexer.dialect).elim (pure ())
        (fun d => warn (.futureKeyword name d) line) s := by
  rw [warnOfKeyword, bind_ok (rfl : (get : Reading State) s = .ok (s, s))]
  cases laterKeyword? name s.lexer.dialect <;> rfl

/-- What is of concern about a name is the same where the later dialect has no meaning for it. -/
theorem risesAt_warnOfKeyword {name : String} {line : Nat}
    (hname : s.Suits w → keyword? name w = none) : RisesAt w s (warnOfKeyword name line) := by
  intro a t hrun ht
  have hwarn : ∀ later : Option Dialect,
      Rises w (later.elim (pure ()) fun d => warn (.futureKeyword name d) line) := by
    intro later
    cases later with
    | none => exact rises_pure ()
    | some d => exact rises_warn _ line
  rw [warnOfKeyword_eq] at hrun
  obtain ⟨hs, hrun'⟩ := hwarn _ s a t hrun ht
  refine ⟨hs, ?_⟩
  have hlater : laterKeyword? name w = laterKeyword? name s.lexer.dialect :=
    laterKeyword_later hs.1 (hname hs)
  rw [warnOfKeyword_eq, show (s.raised w).lexer.dialect = w from rfl, hlater, hrun']

/-- A name is taken, and looked at for what it may come to mean. -/
theorem risesAt_named {f : Token → Reading β} (htag : s.current.tag = .identifier)
    (hf : ∀ t, Rises w (f t)) :
    RisesAt w s (advance >>= fun t => warnOfKeyword t.shown t.line >>= fun _ => f t) := by
  intro b u hrun hu
  obtain ⟨a, s', hadvance, hrest⟩ := bind_iff.mp hrun
  obtain ⟨t, lx, -, hr⟩ := advance_inv hadvance
  obtain ⟨rfl, rfl⟩ := Prod.mk.inj hr
  have hname : (s.seeing (s.sight.after t lx)).Suits w → keyword? s.current.shown w = none :=
    fun h => h.2 s.current (by simp [State.seeing, Sight.after, State.sight]) htag
  obtain ⟨hs', hrest'⟩ := (risesAt_warnOfKeyword hname).bind (fun _ => hf _) b u hrest hu
  obtain ⟨hs, hadvance'⟩ := rises_advance s _ _ hadvance hs'
  exact ⟨hs, (bind_ok hadvance').trans hrest'⟩

theorem rises_declaredName (what : Expected) : Rises w (declaredName what) := by
  refine rises_ask (fun s => ?_) fun _ => rfl
  dsimp only
  split
  · next htag => exact risesAt_named htag fun _ => rises_pure _
  · exact rises_fail _ s
  · exact rises_fail _ s

/-! ## Nodes, scopes and jumps -/

theorem rises_freshId : Rises w freshId := by
  intro s a t hrun ht
  obtain ⟨rfl, rfl⟩ := Prod.mk.inj (Except.ok.inj hrun)
  exact ⟨ht, rfl⟩

theorem rises_makeNode (data : Node) (children : List Tree) : Rises w (makeNode data children) :=
  rises_freshId.bind fun _ => rises_pure _

theorem rises_takeComments : Rises w takeComments := by
  intro s a t hrun ht
  obtain ⟨rfl, rfl⟩ := Prod.mk.inj (Except.ok.inj hrun)
  exact ⟨ht, rfl⟩

theorem rises_withJumps (t : Tree) : Rises w (withJumps t) :=
  rises_ask (fun _ => rises_pure _ _) fun _ => rfl

theorem rises_modifyScope (change : Scope → Scope) : Rises w (modifyScope change) :=
  rises_modify (fun _ h => h) fun _ => rfl

theorem rises_declare (name : String) (line : Nat) : Rises w (declare name line) :=
  rises_ask (fun s => (rises_warn _ _).ite (rises_modifyScope _) s) fun _ => rfl

theorem rises_withTarget {id : NodeId} {isLoop : Bool} {pending : List NodeId} (h : Rises w m) :
    Rises w (withTarget id isLoop pending m) :=
  rises_within (State.within · id isLoop pending)
    (fun s t => { t with targets := s.targets, labels := s.labels }) h
    (fun _ => rises_pure _) (fun _ => rfl) (fun _ _ => rfl) fun _ _ => ⟨fun h => h, fun h => h⟩

theorem rises_inFunction {id : NodeId} (h : Rises w m) : Rises w (inFunction id m) := by
  intro s r u hrun hu
  obtain ⟨a, t, hmid, hend⟩ := inFunction_iff.mp hrun
  obtain ⟨rfl, rfl⟩ := Prod.mk.inj hend
  obtain ⟨hs, hmid'⟩ := h (s.inside id) a t hmid hu
  exact ⟨hs, inFunction_iff.mpr ⟨a, t.raised w, hmid', rfl⟩⟩

theorem rises_destination (tag : Tag) (label? : Option String) (line : Nat) :
    Rises w (destination tag label? line) := by
  refine rises_ask (fun s => ?_) fun _ => rfl
  cases label? with
  | none =>
    dsimp only
    split <;> split
    · exact rises_pure _ s
    · exact rises_failAt _ _ s
    · exact rises_pure _ s
    · exact rises_failAt _ _ s
  | some name =>
    dsimp only
    split
    · exact rises_failAt _ _ s
    · split
      · exact rises_pure _ s
      · split
        · exact rises_pure _ s
        · exact rises_failAt _ _ s

end
end ScriptPress.Grammar
