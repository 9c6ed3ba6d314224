import ScriptPress.Proofs.Insertion.Course
import ScriptPress.Proofs.Locating.Lexer

/-! # Readings that stay on the lines of their text

Every line that a reading tells of is a line of its text: those of its nodes and of what it is
concerned about, if it ends well, and that of its problem otherwise. The rules follow the shape of
a reading; the lines come from tokens alone.
-/
namespace ScriptPress
open Text (IsLine)

/-- A tree whose nodes are all on lines of a text. -/
def Tree.Located (source : List Char) (first : Nat) (t : Tree) : Prop :=
  ∀ u ∈ t.preorder, IsLine source first u.line

namespace Tree
variable {source : List Char} {first : Nat} {t : Tree} {id : NodeId} {data : Node}
  {children : List Tree}

theorem located_node : (node id data children).Located source first ↔
    IsLine source first data.line ∧ ∀ c ∈ children, c.Located source first := by
  constructor
  · intro h
    refine ⟨h _ List.mem_cons_self, fun c hc u hu => h u (List.mem_cons_of_mem _ ?_)⟩
    exact mem_preorderAll.mpr ⟨c, hc, hu⟩
  · rintro ⟨hdata, hchildren⟩ u hu
    rcases List.mem_cons.mp hu with rfl | hu
    · exact hdata
    · obtain ⟨c, hc, hu⟩ := mem_preorderAll.mp hu
      exact hchildren c hc u hu

theorem Located.line (h : t.Located source first) : IsLine source first t.line :=
  h t (by rw [preorder_eq]; exact List.mem_cons_self)

theorem Located.put (h : t.Located source first) (kind : PropertyKind) (value : PropertyValue) :
    (t.put kind value).Located source first := by
  cases t with
  | node id data children =>
    obtain ⟨hdata, hchildren⟩ := located_node.mp h
    exact located_node.mpr ⟨hdata, hchildren⟩

end Tree

namespace Grammar
variable {source : List Char} {first : Nat}

/-- What a state tells about lines: the current token stands in the text, the end of the input on
the last line, and so does all that was concluded from earlier tokens. -/
structure Standing (source : List Char) (first : Nat) (lx : Lexer) (t : Token)
    (previousLine : Nat) (concerns : List (Concern × Nat)) : Prop where
  current : ∃ last before gap slice, t.Stands source first last before gap slice lx.rest
    ∧ lx.Counts source first (before ++ gap ++ slice)
    ∧ (t.isSlash = true → slice ++ lx.rest = '/' :: t.reopen lx.rest)
  last : t.tag = .endOfInput → t.line = first + Text.lineBreaks source
  previous : IsLine source first previousLine
  concerns : ∀ p ∈ concerns, IsLine source first p.2

def State.Located (source : List Char) (first : Nat) (s : State) : Prop :=
  Standing source first s.lexer s.current s.previousLine s.concerns

section
variable {s : State} {t : Token} {lx : Lexer} {d : Diagnostic}

theorem advance_stops (h : s.lexer.next = (.error d, lx)) : advance s = .error d := by
  simp only [advance, bind_ok (rfl : (get : Reading State) s = .ok (s, s)), h]
  rfl

theorem rescan_stops (h : s.lexer.rescan s.current = (.error d, lx)) : rescan s = .error d := by
  simp only [rescan, bind_ok (rfl : (get : Reading State) s = .ok (s, s)), h]
  rfl

theorem State.Located.line (h : s.Located source first) : IsLine source first s.current.line := by
  obtain ⟨last, before, gap, slice, hstands, -⟩ := h.current
  exact Lexer.isLine_of_stands hstands

/-- The state behind a token that was taken on a line of the text. -/
theorem located_after {passed : List Char} (hcounts : s.lexer.Counts source first passed)
    (hline : IsLine source first s.current.line)
    (hconcerns : ∀ p ∈ s.concerns, IsLine source first p.2) (hnext : s.lexer.next = (.ok t, lx)) :
    (s.seeing (s.sight.after t lx)).Located source first := by
  obtain ⟨gap, slice, hstands, hcounts', hslash⟩ := hcounts.next hnext
  exact ⟨⟨_, _, gap, slice, hstands, ⟨hcounts'.whole, hcounts'.position, hcounts'.line,
    hcounts'.apart⟩, hslash⟩, hcounts.next_last hnext, hline, hconcerns⟩

theorem State.Located.again (h : s.Located source first) (hslash : s.current.isSlash = true)
    (hrescan : s.lexer.rescan s.current = (.ok t, lx)) :
    (s.seeing (s.sight.again t lx)).Located source first := by
  obtain ⟨last, before, gap, slice, hstands, hcounts, hopens⟩ := h.current
  have hback : (s.lexer.backTo s.lexer).rescan s.current = (.ok t, lx) := hrescan
  obtain ⟨slice', hstands', hcounts', -⟩ :=
    Lexer.Counts.rescan hstands (hopens hslash) hcounts hback
  obtain ⟨body, -, rfl, -⟩ := Lexer.rescan_pattern_eq hrescan
  refine ⟨⟨last, before, gap, slice', hstands', hcounts', fun his => ?_⟩, fun htag => ?_,
    h.previous, h.concerns⟩
  · simp [Token.isSlash, State.seeing, Sight.again, State.sight] at his
  · cases htag

end

/-- From a state on lines of the text, a reading goes to such a state with a value as described, or
stops at a problem on a line of the text. -/
def LocatesAt {α : Type} (source : List Char) (first : Nat) (P : α → Prop) (s : State)
    (m : Reading α) : Prop :=
  match m s with
  | .ok (a, t) => t.Located source first ∧ P a
  | .error d => IsLine source first d.line

def Locates {α : Type} (source : List Char) (first : Nat) (P : α → Prop) (m : Reading α) : Prop :=
  ∀ s, s.Located source first → LocatesAt source first P s m

section
variable {α β : Type} {P : α → Prop} {Q : β → Prop} {m : Reading α} {f : α → Reading β}
  {s : State}

/-! ## Rules for the shape of a reading -/

theorem LocatesAt.mono {P' : α → Prop} (h : LocatesAt source first P s m)
    (hP : ∀ a, P a → P' a) : LocatesAt source first P' s m := by
  unfold LocatesAt at h ⊢
  split
  · next hm =>
    rw [hm] at h
    exact ⟨h.1, hP _ h.2⟩
  · next hm => rwa [hm] at h

theorem LocatesAt.bind (hm : LocatesAt source first P s m)
    (hf : ∀ a, P a → Locates source first Q (f a)) : LocatesAt source first Q s (m >>= f) := by
  unfold LocatesAt at hm
  split at hm
  · next a t hrun =>
    have hgo := hf a hm.2 t hm.1
    unfold LocatesAt at hgo ⊢
    rwa [bind_ok hrun]
  · next d hrun =>
    unfold LocatesAt
    rwa [bind_error hrun]

theorem Locates.bind (hm : Locates source first P m)
    (hf : ∀ a, P a → Locates source first Q (f a)) : Locates source first Q (m >>= f) :=
  fun s hs => (hm s hs).bind hf

theorem locates_pure {a : α} (h : P a) : Locates source first P (pure a : Reading α) :=
  fun _ hs => ⟨hs, h⟩

theorem locates_failAt {line : Nat} (p : Problem) (h : IsLine source first line) :
    Locates source first P (failAt line p : Reading α) := fun _ _ => h

theorem locates_fail (p : Problem) : Locates source first P (fail p : Reading α) :=
  fun _ hs => hs.line

/-- A question about the state. -/
theorem locates_ask {f : State → Reading β}
    (hf : ∀ s, s.Located source first → LocatesAt source first Q s (f s)) :
    Locates source first Q (get >>= f) := fun s hs => hf s hs

theorem locates_unexpected : Locates source first P (unexpected : Reading α) := by
  refine locates_ask fun s hs => ?_
  dsimp only
  split <;> exact locates_fail _ s hs

theorem locates_modify {change : State → State}
    (h : ∀ s : State, s.Located source first → (change s).Located source first) :
    Locates source first (fun _ => True) (modify change : Reading Unit) :=
  fun s hs => ⟨h s hs, trivial⟩

theorem locates_iterate {step : α → Reading (Turn α β)}
    (h : ∀ a, P a → Locates source first (Turn.Gives P Q) (step a)) (fuel : Nat) {a : α}
    (ha : P a) : Locates source first Q (iterate step fuel a) := by
  induction fuel generalizing a with
  | zero => exact locates_unexpected
  | succ fuel ih =>
    refine (h a ha).bind fun turn hturn => ?_
    cases turn with
    | again a => exact ih hturn
    | done b => exact locates_pure hturn

theorem LocatesAt.ite {yes no : Reading β} {b : Bool}
    (hyes : b = true → LocatesAt source first Q s yes) (hno : LocatesAt source first Q s no) :
    LocatesAt source first Q s (if b = true then yes else no) := by
  split
  · next hb => exact hyes hb
  · exact hno

theorem Locates.ite {yes no : Reading β} {b : Bool} (hyes : Locates source first Q yes)
    (hno : Locates source first Q no) :
    Locates source first Q (if b = true then yes else no) :=
  fun s hs => .ite (fun _ => hyes s hs) (hno s hs)

/-- A reading in a state that was changed for it, where neither the change nor the one back has to
do with lines. -/
theorem locates_within (enter : State → State) (leave : State → State → State)
    (hm : Locates source first P m) (hf : ∀ a, P a → Locates source first Q (f a))
    (hin : ∀ s : State, s.Located source first → (enter s).Located source first)
    (hout : ∀ s t : State, t.Located source first → (leave s t).Located source first) :
    Locates source first Q (within enter leave m f) := by
  intro s hs
  have hback : ∀ a, P a → Locates source first Q (modify (leave s) >>= fun _ => f a) := fun a ha =>
    (locates_modify (hout s)).bind fun _ _ => hf a ha
  exact (hm (enter s) (hin s hs)).bind hback

/-! ## Tokens -/

theorem locates_check (tag : Tag) : Locates source first (fun _ => True) (check tag) :=
  fun _ hs => ⟨hs, trivial⟩

theorem locates_ifCheck {yes no : Reading β} {tag : Tag} (hyes : Locates source first Q yes)
    (hno : Locates source first Q no) :
    Locates source first Q (check tag >>= fun b => if b = true then yes else no) :=
  (locates_check tag).bind fun _ _ => hyes.ite hno

theorem locatesAt_advance {passed : List Char} (hcounts : s.lexer.Counts source first passed)
    (hline : IsLine source first s.current.line)
    (hconcerns : ∀ p ∈ s.concerns, IsLine source first p.2) :
    LocatesAt source first (fun t => IsLine source first t.line) s advance := by
  rcases hnext : s.lexer.next with ⟨d | t, lx⟩
  · have hproblem := hcounts.next_problem hnext
    unfold LocatesAt
    rwa [advance_stops hnext]
  · unfold LocatesAt
    rw [advance_of hnext]
    exact ⟨located_after hcounts hline hconcerns hnext, hline⟩

theorem locates_advance :
    Locates source first (fun t => IsLine source first t.line) advance := by
  intro s hs
  obtain ⟨last, before, gap, slice, -, hcounts, -⟩ := hs.current
  exact locatesAt_advance hcounts hs.line hs.concerns

theorem locatesAt_rescan (hs : s.Located source first) (hslash : s.current.isSlash = true) :
    LocatesAt source first (fun _ => True) s rescan := by
  rcases hnext : s.lexer.rescan s.current with ⟨d | t, lx⟩
  · have hline : IsLine source first d.line := by
      rw [Lexer.rescan_problem hnext]
      exact hs.line
    unfold LocatesAt
    rwa [rescan_stops hnext]
  · unfold LocatesAt
    rw [rescan_of hnext]
    exact ⟨hs.again hslash hnext, trivial⟩

theorem locates_expect (tag : Tag) (what : Expected) :
    Locates source first (fun t => IsLine source first t.line) (expect tag what) :=
  locates_ifCheck locates_advance (locates_fail _)

theorem locates_accept (tag : Tag) : Locates source first (fun _ => True) (accept tag) :=
  locates_ifCheck (locates_advance.bind fun _ _ => locates_pure trivial) (locates_pure trivial)

theorem locates_warn (c : Concern) {line : Nat} (h : IsLine source first line) :
    Locates source first (fun _ => True) (warn c line) := by
  refine locates_modify fun s hs => ⟨hs.current, hs.last, hs.previous, fun p hp => ?_⟩
  rcases List.mem_append.mp hp with hp | hp
  · exact hs.concerns p hp
  · obtain rfl := List.mem_singleton.mp hp
    exact h

theorem locates_omitSemicolon : Locates source first (fun _ => True) omitSemicolon :=
  locates_modify fun _ h => h

theorem locates_endStatement : Locates source first (fun _ => True) endStatement := by
  refine locates_ask fun s hs => .ite (fun _ => ?_) (.ite (fun _ => ?_) ?_)
  · exact (locates_advance.bind fun _ _ => locates_pure trivial) s hs
  · exact (locates_omitSemicolon.bind fun _ _ => locates_warn _ hs.previous) s hs
  · exact locates_fail _ s hs

/-! ## Names -/

theorem locates_warnOfKeyword (name : String) {line : Nat} (h : IsLine source first line) :
    Locates source first (fun _ => True) (warnOfKeyword name line) := by
  refine locates_ask fun s hs => ?_
  split
  · exact locates_warn _ h s hs
  · exact locates_pure trivial s hs

theorem locates_declaredName (what : Expected) :
    Locates source first (fun p => IsLine source first p.2) (declaredName what) := by
  refine locates_ask fun s hs => ?_
  dsimp only
  split
  · refine locates_advance.bind (fun t ht => ?_) s hs
    exact (locates_warnOfKeyword _ ht).bind fun _ _ => locates_pure ht
  · exact locates_fail _ s hs
  · exact locates_fail _ s hs

/-! ## Nodes, scopes and jumps -/

theorem locates_freshId : Locates source first (fun _ => True) freshId :=
  fun _ hs => ⟨hs, trivial⟩

theorem locates_makeNode {data : Node} {children : List Tree}
    (hdata : IsLine source first data.line) (hchildren : ∀ c ∈ children, c.Located source first) :
    Locates source first (Tree.Located source first) (makeNode data children) :=
  locates_freshId.bind fun _ _ => locates_pure (Tree.located_node.mpr ⟨hdata, hchildren⟩)

theorem locates_takeComments : Locates source first (fun _ => True) takeComments :=
  fun _ hs => ⟨hs, trivial⟩

theorem located_withComments {t : Tree} (h : t.Located source first) (kind : PropertyKind)
    (comments : List String) : (withComments kind comments t).Located source first := by
  unfold withComments
  split
  · exact h
  · exact h.put _ _

theorem locates_withJumps {t : Tree} (h : t.Located source first) :
    Locates source first (Tree.Located source first) (withJumps t) := by
  refine locates_ask fun s hs => locates_pure ?_ s hs
  split
  · exact h
  · exact h.put _ _

theorem locates_modifyScope (change : Scope → Scope) :
    Locates source first (fun _ => True) (modifyScope change) := locates_modify fun _ h => h

theorem locates_declare (name : String) {line : Nat} (h : IsLine source first line) :
    Locates source first (fun _ => True) (declare name line) :=
  locates_ask fun s hs => (locates_warn _ h).ite (locates_modifyScope _) s hs

theorem locates_withTarget {id : NodeId} {isLoop : Bool} {pending : List NodeId}
    (h : Locates source first P m) : Locates source first P (withTarget id isLoop pending m) :=
  locates_within (State.within · id isLoop pending)
    (fun s t => { t with targets := s.targets, labels := s.labels }) h
    (fun _ ha => locates_pure ha) (fun _ hs => hs) fun _ _ ht => ht

theorem locates_inFunction {id : NodeId} (h : Locates source first P m) :
    Locates source first (fun r => P r.1) (inFunction id m) := by
  intro s hs
  have hback : ∀ a, P a → Locates source first (fun r : α × Scope => P r.1)
      (get >>= fun t : State => modify (s.outside · id) >>= fun _ => pure (a, t.scope)) :=
    fun a ha => locates_ask fun t ht => (locates_modify fun _ h => h).bind
      (fun _ _ => locates_pure ha) t ht
  exact (h (s.inside id) hs).bind hback

theorem locates_destination (tag : Tag) (label? : Option String) {line : Nat}
    (h : IsLine source first line) :
    Locates source first (fun _ => True) (destination tag label? line) := by
  refine locates_ask fun s hs => ?_
  cases label? with
  | none =>
    dsimp only
    split <;> split
    · exact locates_pure trivial s hs
    · exact locates_failAt _ h s hs
    · exact locates_pure trivial s hs
    · exact locates_failAt _ h s hs
  | some name =>
    dsimp only
    split
    · exact locates_failAt _ h s hs
    · split
      · exact locates_pure trivial s hs
      · split
        · exact locates_pure trivial s hs
        · exact locates_failAt _ h s hs

end
end Grammar
end ScriptPress
