import ScriptPress.Proofs.Functions.Nesting
import ScriptPress.Proofs.Jumps.Aim
import ScriptPress.Proofs.Reading.Aside
import ScriptPress.Proofs.Reading.Script

/-! # The course of a reading

What a part of a reading does to identities, jumps and the statements in force, step by step. The
trees built so far are kept in a list, in the order of the text; a node takes the trees at its end.
-/
namespace ScriptPress.Grammar

namespace State

/-- The nodes that a jump can go to. -/
def goals (s : State) : List NodeId :=
  s.targets.map (·.id) ++ s.labels.map (·.id) ++ s.labels.filterMap (·.loop?)

/-- The nodes that a property can name: those jumps can go to, and the function around. -/
def known (s : State) : List NodeId := s.goals ++ s.scope.function?.toList

def ledger (s : State) : Ledger := ⟨s.nextId, s.jumps⟩

def env (s : State) : Env := ⟨s.targets, s.labels, s.pendingLabels⟩

/-- What the course of a reading is about. -/
structure View where
  env : Env
  function? : Option NodeId
  functions : List NodeId
  ledger : Ledger

def view (s : State) : View := ⟨s.env, s.scope.function?, s.scope.functions, s.ledger⟩

/-- Identities that were given out cover what a state knows. -/
def Tame (s : State) : Prop := s.ledger.Covers s.known

end State

open State (Tame)

theorem goals_known {s : State} : ∀ id ∈ s.goals, id ∈ s.known :=
  fun _ hid => List.mem_append_left _ hid

/-- From one state to another trees were built, each with a property. Nodes in `opened` have got
an identity that no tree has yet. -/
structure Took (P : Tree → Prop) (opened : List NodeId) (s s' : State) (ts : List Tree) :
    Prop where
  targets : s'.targets = s.targets
  labels : s'.labels = s.labels
  function? : s'.scope.function? = s.scope.function?
  pending : s.pendingLabels = [] → s'.pendingLabels = []
  functions : s'.scope.functions = s.scope.functions ++ Tree.directFunctions ts
  nested : ∀ t ∈ ts, t.Nested s.scope.function?
  covers : s.ledger.Covers (opened ++ s.known)
  tally : Tally (opened ++ s.goals) (opened ++ s.known) s.ledger s'.ledger ts
  all : ∀ t ∈ ts, P t

namespace Took
variable {P P' : Tree → Prop} {opened : List NodeId} {s s' s'' : State} {ts us : List Tree}

theorem known (h : Took P opened s s' ts) : s'.known = s.known := by
  simp only [State.known, State.goals, h.targets, h.labels, h.function?]

theorem low (h : Took P opened s s' ts) : ∀ id ∈ opened ++ s.goals, id.index < s.nextId :=
  fun id hid => h.covers.known id ((List.mem_append.mp hid).elim (List.mem_append_left _)
    fun hg => List.mem_append_right _ (goals_known id hg))

theorem covered (h : Took P opened s s' ts) : s'.ledger.Covers (opened ++ s'.known) :=
  h.known ▸ h.tally.covers h.low h.covers

theorem tame (h : Took P opened s s' ts) : Tame s' :=
  ⟨fun id hid => h.covered.known id (List.mem_append_right _ hid), h.covered.jumps⟩

theorem mono (h : Took P opened s s' ts) (hP : ∀ t, P t → P' t) : Took P' opened s s' ts :=
  { h with all := fun t ht => hP t (h.all t ht) }

theorem start (hs : s.ledger.Covers (opened ++ s.known)) : Took P opened s s [] :=
  ⟨rfl, rfl, rfl, id, by simp, by simp, hs, .nil _ _ _, by simp⟩

theorem refl (hs : Tame s) : Took P [] s s [] := start hs

/-- Steps that build no tree and give out no identity. -/
theorem still (h : Took P opened s s' ts) (hv : s''.view = s'.view) : Took P opened s s'' ts := by
  obtain ⟨henv, hfunction, hfunctions, hledger⟩ := State.View.mk.inj hv
  obtain ⟨htargets, hlabels, hpending⟩ := Env.mk.inj henv
  refine ⟨htargets.trans h.targets, hlabels.trans h.labels, hfunction.trans h.function?,
    fun hp => hpending.trans (h.pending hp), hfunctions.trans h.functions, h.nested, h.covers,
    hledger ▸ h.tally, h.all⟩

theorem trans (h : Took P opened s s' ts) (h' : Took P opened s' s'' us) :
    Took P opened s s'' (ts ++ us) := by
  have htally := h'.tally
  have hgoals : s'.goals = s.goals := by simp only [State.goals, h.targets, h.labels]
  rw [hgoals, h.known] at htally
  have hnested := h'.nested
  rw [h.function?] at hnested
  refine ⟨h'.targets.trans h.targets, h'.labels.trans h.labels, h'.function?.trans h.function?,
    fun hp => h'.pending (h.pending hp), ?_,
    fun t ht => (List.mem_append.mp ht).elim (h.nested t) (hnested t), h.covers,
    h.tally.append htally h.low, fun t ht => (List.mem_append.mp ht).elim (h.all t) (h'.all t)⟩
  rw [h'.functions, h.functions, Tree.directFunctions_append, List.append_assoc]

/-- Trees that were built without an open node were built with it. -/
theorem opened_of (h : Took P [] s s' ts) (hs : s.ledger.Covers (opened ++ s.known)) :
    Took P opened s s' ts :=
  { h with
    covers := hs
    tally := h.tally.mono (fun _ => List.mem_append_right _) fun _ => List.mem_append_right _ }

/-- Trees read after others, maybe inside an open node. -/
theorem and_then (h : Took P opened s s' ts) (h' : Took P' [] s' s'' us) (hP : ∀ t, P' t → P t) :
    Took P opened s s'' (ts ++ us) :=
  h.trans ((h'.mono hP).opened_of h.covered)

end Took

/-! ## Rules for steps -/

section
variable {α β : Type} {P P' : Tree → Prop} {opened : List NodeId} {s s' s₀ : State}
  {ts : List Tree}

/-- A step that builds no tree and leaves what a course is about as it was. -/
def Idle (m : Reading α) : Prop := ∀ s, Ensures False m s fun _ s' => s'.view = s.view

theorem idle_get {f : State → Reading α} (h : ∀ s, Idle (f s)) : Idle (get >>= f) :=
  fun s => ensures_get (h s s)

theorem idle_modify {change : State → State} (h : ∀ s, (change s).view = s.view) :
    Idle (modify change : Reading Unit) := fun s => ensures_of_ok rfl (h s)

/-- A step that builds no tree, in the course of a reading. -/
theorem Idle.next {m : Reading α} {f : α → Reading β} {Q : β → State → Prop} (hm : Idle m)
    (h : Took P opened s₀ s ts)
    (hf : ∀ a s', Took P opened s₀ s' ts → Ensures False (f a) s' Q) :
    Ensures False (m >>= f) s Q :=
  (hm s).bind fun a s' hv => hf a s' (h.still hv)

/-- A reader for one tree with a property. -/
def Counts (P : Tree → Prop) (m : Reading Tree) : Prop :=
  ∀ s, Tame s → Ensures False m s fun t s' => Took P [] s s' [t]

/-- A reader for trees with a property. -/
def CountsAll (P : Tree → Prop) (m : Reading (List Tree)) : Prop :=
  ∀ s, Tame s → Ensures False m s fun ts s' => Took P [] s s' ts

theorem Counts.next {m : Reading Tree} {f : Tree → Reading β} {Q : β → State → Prop}
    (hm : Counts P' m) (hP : ∀ t, P' t → P t) (h : Took P opened s₀ s ts)
    (hf : ∀ t s', P' t → Took P opened s₀ s' (ts ++ [t]) → Ensures False (f t) s' Q) :
    Ensures False (m >>= f) s Q :=
  (hm s h.tame).bind fun t s' h' => hf t s' (h'.all t (by simp)) (h.and_then h' hP)

theorem CountsAll.next {m : Reading (List Tree)} {f : List Tree → Reading β}
    {Q : β → State → Prop} (hm : CountsAll P' m) (hP : ∀ t, P' t → P t)
    (h : Took P opened s₀ s ts)
    (hf : ∀ us s', Took P opened s₀ s' (ts ++ us) → Ensures False (f us) s' Q) :
    Ensures False (m >>= f) s Q :=
  (hm s h.tame).bind fun us s' h' => hf us s' (h.and_then h' hP)

/-- The state after an identity was given out. -/
def State.opening (s : State) : State := { s with nextId := s.nextId + 1 }

/-- An identity is given out for a node that is still to be built. -/
theorem Took.opening {Q : Tree → Prop} (h : Took P [] s₀ s ts) :
    Took Q [⟨s.nextId⟩] s.opening s.opening [] := by
  refine .start ⟨fun id hid => ?_, fun j hj => Nat.lt_succ_of_lt (h.tame.jumps j hj)⟩
  rcases List.mem_cons.mp hid with rfl | hid
  · exact Nat.lt_succ_self _
  · exact Nat.lt_succ_of_lt (h.tame.known id hid)

theorem ensures_freshId' {f : NodeId → Reading β} {Q : β → State → Prop}
    (hf : Ensures False (f ⟨s.nextId⟩) s.opening Q) : Ensures False (freshId >>= f) s Q := hf

theorem Took.tame_opening (h : Took P [] s₀ s ts) : Tame s.opening :=
  ⟨fun id hid => Nat.lt_succ_of_lt (h.tame.known id hid),
    fun j hj => Nat.lt_succ_of_lt (h.tame.jumps j hj)⟩

/-- A node over the trees built before it got its identity and those built after, when the tally
goes on with it. It is no function. -/
theorem Took.closed {P₁ P₂ : Tree → Prop} {cs cs' : List Tree} {t : Tree}
    (h : Took P₁ [] s₀ s cs) (h' : Took P₂ opened s.opening s' cs') (ht : t.children = cs ++ cs')
    (htag : t.tag ≠ .kwFunction)
    (htally : Tally (opened ++ s₀.goals) (opened ++ s₀.known) s.opening.ledger s'.ledger cs' →
      Tally s₀.goals s₀.known s₀.ledger s'.ledger [t])
    (hP : P t) : Took P [] s₀ s' [t] := by
  have hknown : s.opening.known = s₀.known := h.known
  have hgoals : s.opening.goals = s₀.goals := by
    simp only [State.goals, State.opening, h.targets, h.labels]
  have htally' := h'.tally
  rw [hknown, hgoals] at htally'
  have hnested : ∀ c ∈ cs', c.Nested s₀.scope.function? := h.function? ▸ h'.nested
  refine ⟨h'.targets.trans h.targets, h'.labels.trans h.labels, h'.function?.trans h.function?,
    fun hp => h'.pending (h.pending hp), ?_, ?_, h.covers, htally htally', by simpa using hP⟩
  · rw [h'.functions, State.opening, h.functions, Tree.directFunctions_other htag, ht,
      Tree.directFunctions_append, List.append_assoc]
  · rw [List.forall_mem_singleton]
    refine .other htag fun c hc => ?_
    rw [ht] at hc
    exact (List.mem_append.mp hc).elim (h.nested c) (hnested c)

/-- A node that names no node, and to which no jump goes. -/
theorem Took.close_quiet {Q R : Tree → Prop} {cs cs' : List Tree} {data : Node}
    (h : Took Q [] s₀ s cs) (h' : Took R [] s.opening s' cs') (hdata : data.Quiet)
    (hP : P (.node ⟨s.nextId⟩ data (cs ++ cs'))) :
    Took P [] s₀ s' [.node ⟨s.nextId⟩ data (cs ++ cs')] :=
  h.closed h' rfl hdata.noFunction
    (fun ht => h.tally.node_quiet rfl ht h.covers goals_known hdata) hP

theorem makeNode_counts {P₁ : Tree → Prop} {data : Node} (h : Took P₁ [] s₀ s ts)
    (hdata : data.Quiet) (hP : ∀ id, P (.node id data ts)) :
    Ensures False (makeNode data ts) s fun t s' => Took P [] s₀ s' [t] := by
  refine ensures_freshId' (ensures_pure ?_)
  have hnode : Took P [] s₀ s.opening [.node ⟨s.nextId⟩ data (ts ++ [])] :=
    h.close_quiet (R := P) (.refl h.tame_opening) hdata ((List.append_nil ts).symm ▸ hP _)
  rwa [List.append_nil] at hnode

/-- A node without children. -/
theorem counts_leaf {data : Node} (hdata : data.Quiet) (hP : ∀ id, P (.node id data [])) :
    Counts P (makeNode data []) := fun _ hs => makeNode_counts (.refl (P := P) hs) hdata hP

theorem Took.of_eq {us : List Tree} (h : Took P opened s s' ts) (he : ts = us) :
    Took P opened s s' us := he ▸ h

end

/-! ## Tokens and notes -/

instance : Aside State.view where
  same s s' hscope htargets hlabels hpending hjumps hnext := by
    simp only [State.view, State.env, State.ledger, hscope, htargets, hlabels, hpending, hjumps,
      hnext]

theorem idle_advance : Idle advance := preserves_advance

theorem advance_still (s : State) :
    Ensures False advance s fun t s' => t = s.current ∧ s'.view = s.view :=
  advance_current.and (idle_advance s)

theorem idle_expect (tag : Tag) (what : Expected) : Idle (expect tag what) :=
  preserves_expect tag what

theorem idle_accept (tag : Tag) : Idle (accept tag) := preserves_accept tag

theorem idle_rescan : Idle rescan := preserves_rescan

theorem idle_warn (c : Concern) (line : Nat) : Idle (warn c line) := preserves_warn c line

theorem idle_endStatement : Idle endStatement := preserves_endStatement

theorem idle_warnOfKeyword (name : String) (line : Nat) : Idle (warnOfKeyword name line) :=
  preserves_warnOfKeyword name line

theorem idle_declaredName (what : Expected) : Idle (declaredName what) :=
  preserves_declaredName what

theorem idle_takeComments : Idle takeComments := preserves_takeComments

theorem idle_modifyScope {change : Scope → Scope}
    (h : ∀ scope, (change scope).function? = scope.function?
      ∧ (change scope).functions = scope.functions) : Idle (modifyScope change) := by
  refine idle_modify fun s => ?_
  obtain ⟨hfunction, hfunctions⟩ := h s.scope
  simp only [State.view, State.env, State.ledger, hfunction, hfunctions]

theorem idle_declare (name : String) (line : Nat) : Idle (declare name line) := by
  refine idle_get fun s => ?_
  split
  · exact idle_warn _ _
  · exact idle_modifyScope fun _ => ⟨rfl, rfl⟩

theorem idle_noteUse (name : String) : Idle (noteUse name) := idle_modifyScope fun _ => ⟨rfl, rfl⟩

theorem idle_needActivation : Idle needActivation := idle_modifyScope fun _ => ⟨rfl, rfl⟩

end ScriptPress.Grammar
