import ScriptPress.Proofs.Reading.Ensures
import ScriptPress.Proofs.Settings.Frame

/-! # Readings in a frame

Rules for a reading and the same reading in a frame. From the same place both go on alike: they end
in the same place with the same result, or with the same problem, each in its frame.
-/
namespace ScriptPress.Grammar

def State.framed (v : Framing) (s : State) : State :=
  { s with
    lexer := s.lexer.framed v
    current := s.current.framed v
    previousLine := s.previousLine + v.before
    comments := v.texts s.comments
    heard := v.texts s.heard
    taken := s.taken.map (Token.framed v)
    concerns := s.concerns.map fun c => (c.1, c.2 + v.before) }

section
variable {v : Framing} (s : State)

@[simp] theorem State.current_framed : (s.framed v).current = s.current.framed v := rfl

@[simp] theorem State.lexer_framed : (s.framed v).lexer = s.lexer.framed v := rfl

@[simp] theorem State.scope_framed : (s.framed v).scope = s.scope := rfl

@[simp] theorem State.targets_framed : (s.framed v).targets = s.targets := rfl

@[simp] theorem State.tokens_framed :
    (s.framed v).tokens = s.tokens.map (Token.framed v) := by
  change (s.taken.map (Token.framed v)).reverse.filter (·.tag != .endOfInput) = _
  rw [← List.map_reverse, List.filter_map]
  rfl

@[simp] theorem State.labels_framed (name : String) :
    labelNamed? name (s.framed v) = labelNamed? name s := rfl

end

section
variable {α β γ δ : Type} {v : Framing} {φ : α → γ} {ψ : β → δ}
  {m : Reading α} {m' : Reading γ} {f : α → Reading β} {f' : γ → Reading δ}

/-- What a reading comes to, with its result mapped. -/
def framedOutcome (v : Framing) (φ : α → γ) :
    Except Diagnostic (α × State) → Except Diagnostic (γ × State)
  | .ok (a, s) => .ok (φ a, s.framed v)
  | .error d => .error (d.framed v)

/-- Two readings of which the second is the first one in a frame, up to a map of its result. -/
def Frames (v : Framing) (φ : α → γ) (m : Reading α) (m' : Reading γ) : Prop :=
  ∀ s, m' (s.framed v) = framedOutcome v φ (m s)

/-! ## Rules for the shape of a reading -/

theorem Frames.bind (hm : Frames v φ m m') (hf : ∀ a, Frames v ψ (f a) (f' (φ a))) :
    Frames v ψ (m >>= f) (m' >>= f') := by
  intro s
  cases hmid : m s with
  | error d => rw [bind_error hmid, bind_error (by rw [hm s, hmid]; rfl)]; rfl
  | ok p =>
    obtain ⟨a, t⟩ := p
    rw [bind_ok hmid, bind_ok (by rw [hm s, hmid]; rfl), hf a t]

theorem frames_pure {a : α} {b : γ} (h : b = φ a) : Frames v φ (pure a) (pure b) := by
  intro s
  rw [h]
  rfl

/-- Readings that fail with the same problem. -/
theorem frames_failAt {line line' : Nat} (p : Problem) (h : line' = line + v.before) :
    Frames v φ (failAt line p) (failAt line' p) := by
  intro s
  rw [h]
  rfl

theorem frames_throw (d : Diagnostic) :
    Frames v φ (throw d : Reading α) (throw (d.framed v) : Reading γ) := fun _ => rfl

theorem frames_fail (p : Problem) : Frames v φ (fail p) (fail p) := fun _ => rfl

/-- A question about the state. -/
theorem frames_get {f : State → Reading β} {f' : State → Reading δ}
    (hf : ∀ s, Frames v ψ (f s) (f' (s.framed v))) : Frames v ψ (get >>= f) (get >>= f') :=
  fun s => hf s s

theorem frames_unexpected : Frames v φ (unexpected : Reading α) (unexpected : Reading γ) := by
  refine frames_get fun s => ?_
  simp only [State.current_framed, Token.tag_framed, Token.shown_framed]
  split <;> exact frames_fail _

theorem frames_modify {f f' : State → State} (h : ∀ s, f' (s.framed v) = (f s).framed v) :
    Frames v id (modify f) (modify f') := by
  intro s
  change Except.ok ((), f' (s.framed v)) = _
  rw [h]
  rfl

theorem frames_set {s s' : State} (h : s' = s.framed v) : Frames v id (set s) (set s') := by
  intro _
  rw [h]
  rfl

/-- One turn of a loop, with what it goes on or ends with mapped. -/
def Turn.map (φ : α → γ) (ψ : β → δ) : Turn α β → Turn γ δ
  | .again a => .again (φ a)
  | .done b => .done (ψ b)

theorem frames_iterate {step : α → Reading (Turn α β)} {step' : γ → Reading (Turn γ δ)}
    (h : ∀ a, Frames v (Turn.map φ ψ) (step a) (step' (φ a))) (fuel : Nat) (a : α) :
    Frames v ψ (iterate step fuel a) (iterate step' fuel (φ a)) := by
  induction fuel generalizing a with
  | zero => exact frames_unexpected
  | succ fuel ih =>
    refine (h a).bind fun turn => ?_
    cases turn with
    | again a => exact ih a
    | done b => exact frames_pure rfl

theorem Frames.ite {yes no : Reading β} {yes' no' : Reading δ} {b b' : Bool} (h : b' = b)
    (hyes : Frames v ψ yes yes') (hno : Frames v ψ no no') :
    Frames v ψ (if b = true then yes else no) (if b' = true then yes' else no') := by
  subst h
  split
  · exact hyes
  · exact hno

/-! ## Tokens -/

theorem frames_check (tag : Tag) : Frames v id (check tag) (check tag) := fun _ => rfl

theorem frames_ifCheck {yes no : Reading β} {yes' no' : Reading δ} {tag : Tag}
    (hyes : Frames v ψ yes yes') (hno : Frames v ψ no no') :
    Frames v ψ (check tag >>= fun b => if b = true then yes else no)
      (check tag >>= fun b => if b = true then yes' else no') :=
  (frames_check tag).bind fun _ => .ite rfl hyes hno

theorem texts_append (v : Framing) (xs ys : List String) :
    v.texts (xs ++ ys) = v.texts xs ++ v.texts ys := by
  unfold Framing.texts
  split <;> rfl

theorem texts_comments (v : Framing) (lx : Lexer) :
    (lx.framed v).comments.map Comment.text = v.texts (lx.comments.map Comment.text) := by
  unfold Framing.texts
  simp only [Lexer.framed]
  split
  · rw [List.map_map]
    rfl
  · rfl

/-- What is seen when a token was read. -/
theorem State.framed_after (s : State) (t : Token) (lx : Lexer) :
    ({ s with
        lexer := (lx.takeComments).2, current := t, previousLine := s.current.line
        previousStop := s.current.stop
        comments := s.comments ++ (lx.takeComments).1.map Comment.text
        heard := s.heard ++ (lx.takeComments).1.map Comment.text
        taken := s.current :: s.taken } : State).framed v
      = { s.framed v with
        lexer := ((lx.framed v).takeComments).2, current := t.framed v
        previousLine := (s.framed v).current.line, previousStop := (s.framed v).current.stop
        comments := (s.framed v).comments ++ ((lx.framed v).takeComments).1.map Comment.text
        heard := (s.framed v).heard ++ ((lx.framed v).takeComments).1.map Comment.text
        taken := (s.framed v).current :: (s.framed v).taken } := by
  have hcomments : ((lx.framed v).takeComments).1.map Comment.text
      = v.texts ((lx.takeComments).1.map Comment.text) := texts_comments v lx
  have hlexer : ((lx.framed v).takeComments).2 = ((lx.takeComments).2).framed v := by
    simp [Lexer.takeComments, Lexer.framed]
  rw [hcomments, hlexer]
  simp only [State.framed, texts_append]
  rfl

theorem frames_advance : Frames v (Token.framed v) advance advance := by
  refine frames_get fun s => ?_
  rw [State.lexer_framed, Lexer.next_framed]
  rcases s.lexer.next with ⟨d | t, lx⟩
  · exact frames_throw d
  · exact (frames_set (State.framed_after s t lx).symm).bind fun _ => frames_pure rfl

theorem frames_rescan : Frames v id rescan rescan := by
  refine frames_get fun s => ?_
  rw [State.lexer_framed, State.current_framed, Lexer.rescan_framed]
  rcases s.lexer.rescan s.current with ⟨d | t, lx⟩
  · exact frames_throw d
  · exact frames_set rfl

theorem frames_expect (tag : Tag) (what : Expected) :
    Frames v (Token.framed v) (expect tag what) (expect tag what) :=
  frames_ifCheck frames_advance (frames_fail _)

theorem frames_accept (tag : Tag) : Frames v id (accept tag) (accept tag) :=
  frames_ifCheck (frames_advance.bind fun _ => frames_pure rfl) (frames_pure rfl)

theorem frames_warn (c : Concern) {line line' : Nat} (h : line' = line + v.before) :
    Frames v id (warn c line) (warn c line') :=
  frames_modify fun s => by simp [State.framed, h]

theorem frames_omitSemicolon : Frames v id omitSemicolon omitSemicolon :=
  frames_modify fun _ => rfl

theorem frames_endStatement : Frames v id endStatement endStatement := by
  refine frames_get fun s => .ite rfl ?_ (.ite rfl ?_ (frames_fail _))
  · exact frames_advance.bind fun _ => frames_pure rfl
  · exact frames_omitSemicolon.bind fun _ => frames_warn _ rfl

theorem frames_warnOfKeyword (name : String) {line line' : Nat} (h : line' = line + v.before) :
    Frames v id (warnOfKeyword name line) (warnOfKeyword name line') := by
  refine frames_get fun s => ?_
  rw [State.lexer_framed, Lexer.dialect_framed]
  split
  · exact frames_warn _ h
  · exact frames_pure rfl

/-- A name and the line it stands on. -/
def framedName (v : Framing) (p : String × Nat) : String × Nat := (p.1, p.2 + v.before)

theorem frames_declaredName (what : Expected) :
    Frames v (framedName v) (declaredName what) (declaredName what) := by
  refine frames_get fun s => ?_
  simp only [State.current_framed, Token.tag_framed, Token.shown_framed]
  split
  · refine frames_advance.bind fun t => ?_
    exact (frames_warnOfKeyword _ rfl).bind fun _ => frames_pure rfl
  · exact frames_fail _
  · exact frames_fail _

/-! ## Nodes, scopes and jumps -/

theorem frames_freshId : Frames v id freshId freshId := fun _ => rfl

theorem frames_makeNode {data data' : Node} {children children' : List Tree}
    (hdata : data' = data.framed v) (hchildren : children' = children.map (Tree.framed v)) :
    Frames v (Tree.framed v) (makeNode data children) (makeNode data' children') := by
  refine frames_freshId.bind fun id => frames_pure ?_
  rw [Tree.framed_node, Tree.framedAll_eq, hdata, hchildren]
  rfl

theorem frames_takeComments : Frames v v.texts takeComments takeComments := by
  intro s
  change Except.ok (v.texts s.comments, { s.framed v with comments := [] })
    = Except.ok (v.texts s.comments, State.framed v { s with comments := [] })
  simp [State.framed, Framing.texts]

theorem frames_withJumps {t t' : Tree} (h : t' = t.framed v) :
    Frames v (Tree.framed v) (withJumps t) (withJumps t') := by
  refine frames_get fun s => frames_pure ?_
  subst h
  simp only [Tree.id_framed, show (s.framed v).jumps = s.jumps from rfl]
  split
  · rfl
  · exact (Tree.framed_put _ _ rfl).symm

theorem frames_modifyScope (f : Scope → Scope) : Frames v id (modifyScope f) (modifyScope f) :=
  frames_modify fun _ => rfl

theorem frames_declare (name : String) {line line' : Nat} (h : line' = line + v.before) :
    Frames v id (declare name line) (declare name line') :=
  frames_get fun _ => .ite rfl (frames_warn _ h) (frames_modifyScope _)

theorem frames_noteUse (name : String) : Frames v id (noteUse name) (noteUse name) :=
  frames_modifyScope _

theorem frames_needActivation : Frames v id needActivation needActivation := frames_modifyScope _

theorem frames_withTarget {body : Reading α} {body' : Reading γ} (id : NodeId) (isLoop : Bool)
    (pending : List NodeId) (hbody : Frames v φ body body') :
    Frames v φ (withTarget id isLoop pending body) (withTarget id isLoop pending body') := by
  refine frames_get fun s => (frames_set rfl).bind fun _ => hbody.bind fun a => ?_
  exact Frames.bind (frames_modify fun _ => rfl) fun _ => frames_pure rfl

theorem frames_destination (tag : Tag) (label? : Option String) {line line' : Nat}
    (h : line' = line + v.before) :
    Frames v id (destination tag label? line) (destination tag label? line') := by
  refine frames_get fun s => ?_
  simp only [State.targets_framed, State.labels_framed]
  cases label? with
  | none =>
    refine .ite rfl ?_ ?_ <;> split
    · exact frames_pure rfl
    · exact frames_failAt _ h
    · exact frames_pure rfl
    · exact frames_failAt _ h
  | some name =>
    dsimp only
    split
    · exact frames_failAt _ h
    · refine .ite rfl (frames_pure rfl) ?_
      split
      · exact frames_pure rfl
      · exact frames_failAt _ h

end
end ScriptPress.Grammar
