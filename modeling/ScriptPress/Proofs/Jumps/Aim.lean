import ScriptPress.Proofs.Jumps.Tally

/-! # Where jumps go

The statements that jumps can go to from a place of a tree, by the nodes around it. A function
hides what is around it, a loop or a switch is a new target, a label names what it stands before,
and a loop is what the labels right before it stand for.
-/
namespace ScriptPress

open Grammar (JumpTarget LabelEntry State)

/-- The name of a label, or of the label a jump goes by. -/
def Node.labelName? (n : Node) : Option String := n.properties.text? .label

/-- The name a label gives to the statement behind it. -/
def Tree.label? (t : Tree) : Option String :=
  if t.tag == .label then t.data.labelName? else none

/-- The targets and labels in force, the innermost first, and the labels right in front. -/
structure Env where
  targets : List JumpTarget := []
  labels : List LabelEntry := []
  pending : List NodeId := []

namespace Env

/-- The node a jump goes to, by its label if there is one. -/
def aim (env : Env) (tag : Tag) (label? : Option String) : Option NodeId :=
  match label? with
  | none =>
    if tag == .kwBreak then env.targets.head?.map (·.id)
    else (env.targets.find? (·.isLoop)).map (·.id)
  | some name =>
    (env.labels.find? (·.name == name)).bind fun l =>
      if tag == .kwBreak then some l.id else l.loop?

/-- Inside a loop or a switch. -/
def within (env : Env) (id : NodeId) (isLoop : Bool) : Env where
  targets := ⟨id, isLoop⟩ :: env.targets
  labels := if isLoop then env.labels.map (·.before env.pending id) else env.labels

/-- Behind a label. -/
def behind (env : Env) (name : String) (id : NodeId) : Env where
  targets := env.targets
  labels := ⟨name, id, none⟩ :: env.labels
  pending := env.pending ++ [id]

/-- At a place with no label right in front of it. -/
def settled (env : Env) : Env := { env with pending := [] }

/-- Inside a node. -/
def enter (env : Env) (t : Tree) : Env :=
  if t.tag == .kwFunction then {}
  else if t.tag.isLoop then env.within t.id true
  else if t.tag == .kwSwitch then env.within t.id false
  else
    match t.label? with
    | some name => env.behind name t.id
    | none => env.settled

theorem enter_function (env : Env) {t : Tree} (h : t.tag = .kwFunction) : env.enter t = {} := by
  simp [enter, h]

theorem enter_loop (env : Env) {t : Tree} (h : t.tag.isLoop = true) :
    env.enter t = env.within t.id true := by
  have hne : (t.tag == .kwFunction) = false := by
    cases ht : t.tag <;> simp [ht, Tag.isLoop] at h ⊢
  simp [enter, h, hne]

theorem enter_switch (env : Env) {t : Tree} (h : t.tag = .kwSwitch) :
    env.enter t = env.within t.id false := by
  simp [enter, h, Tag.isLoop]

theorem enter_label (env : Env) {t : Tree} {name : String} (h : t.label? = some name) :
    env.enter t = env.behind name t.id := by
  have htag : t.tag = .label := by
    by_contra hne
    simp [Tree.label?, hne] at h
  simp [enter, htag, Tag.isLoop, h]

/-- Whether a node changes what jumps inside it can go to. -/
def changes (tag : Tag) : Bool :=
  tag == .kwFunction || tag.isLoop || tag == .kwSwitch || tag == .label

theorem enter_other (env : Env) {t : Tree} (h : changes t.tag = false) :
    env.enter t = env.settled := by
  simp only [changes, Bool.or_eq_false_iff] at h
  simp [enter, h, Tree.label?]

end Env

/-- Every jump of a tree goes where the nodes around it say. -/
inductive Aimed : Env → Tree → Prop
  | intro {env : Env} {t : Tree} :
      (t.isJump = true → ∃ target, t.data.properties.get? .target = some (.node target)
        ∧ env.aim t.tag t.data.labelName? = some target) →
      (∀ c ∈ t.children, Aimed (env.enter t) c) → Aimed env t

namespace Aimed
variable {env : Env} {t : Tree}

theorem here (h : Aimed env t) (hj : t.isJump = true) :
    ∃ target, t.data.properties.get? .target = some (.node target)
      ∧ env.aim t.tag t.data.labelName? = some target := by
  cases h with
  | intro hjump _ => exact hjump hj

theorem inside (h : Aimed env t) : ∀ c ∈ t.children, Aimed (env.enter t) c := by
  cases h with
  | intro _ hchildren => exact hchildren

/-- What is put on a tree beside a label and a target plays no part. -/
theorem put (h : Aimed env t) {kind : PropertyKind} {value : PropertyValue}
    (hl : kind ≠ .label) (ht : kind ≠ .target) : Aimed env (t.put kind value) := by
  obtain ⟨id, data, children⟩ := t
  have hget : ∀ k, k ≠ kind → (data.put kind value).properties.get? k = data.properties.get? k :=
    fun k hk => by rw [Node.put, Properties.get?_put, if_neg hk]
  have hname : (data.put kind value).labelName? = data.labelName? := by
    rw [Node.labelName?, Properties.text?, hget _ (Ne.symm hl)]
    rfl
  have henter : env.enter (.node id (data.put kind value) children)
      = env.enter (.node id data children) := by
    simp only [Env.enter, Tree.label?, Tree.tag, Tree.data, Tree.id, hname]
    rfl
  refine .intro (fun hj => ?_) fun c hc => henter ▸ h.inside c hc
  obtain ⟨target, htarget, haim⟩ := h.here hj
  refine ⟨target, (hget _ (Ne.symm ht)).trans htarget, ?_⟩
  exact (congrArg (env.aim data.tag) hname).trans haim

end Aimed

/-- A tree whose jumps go to statements in it, wherever it stands. -/
def Enclosed (t : Tree) : Prop := ∀ env, Aimed env t

theorem enclosed_node {t : Tree} (hj : t.isJump = false) (h : ∀ c ∈ t.children, Enclosed c) :
    Enclosed t :=
  fun env => .intro (fun h => absurd (hj.symm.trans h) (by simp)) fun c hc => h c hc _

/-- Jumps do not leave functions. -/
theorem enclosed_function {t : Tree} (ht : t.tag = .kwFunction)
    (h : ∀ c ∈ t.children, Aimed {} c) : Enclosed t := by
  intro env
  refine .intro (fun hj => ?_) ?_
  · simp [Tree.isJump, ht] at hj
  · rw [Env.enter_function env ht]
    exact h

/-- A node that neither jumps nor changes what can be jumped to. -/
theorem aimed_node {env : Env} {t : Tree} (hj : t.isJump = false)
    (hc : Env.changes t.tag = false) (h : ∀ c ∈ t.children, Aimed env.settled c) : Aimed env t := by
  refine .intro (fun h => absurd (hj.symm.trans h) (by simp)) ?_
  rw [Env.enter_other env hc]
  exact h

end ScriptPress
