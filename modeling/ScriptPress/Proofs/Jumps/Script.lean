import ScriptPress.Proofs.Jumps.Statement

/-! # Jumps in scripts

A whole script is read from a state that knows no node, so its jumps and properties stay in it.
What the nodes around a jump say is then told by the path from the jump to the root.
-/
namespace ScriptPress
namespace Grammar
open State (Tame)

variable {g : Grammar} {s : State}

theorem Took.alike {P Q : Tree → Prop} {s s' : State} {id : NodeId} {n n' : Node}
    {children : List Tree} (h : Took P [] s s' [.node id n children]) (hn : n.Alike n')
    (hQ : Q (.node id n' children)) : Took Q [] s s' [.node id n' children] := by
  refine ⟨h.targets, h.labels, h.function?, h.pending, h.functions.trans ?_, ?_, h.covers,
    h.tally.alike hn, by simpa using hQ⟩
  · rw [Tree.directFunctions_alike hn]
  · rw [List.forall_mem_singleton]
    exact (h.nested _ (by simp)).alike hn

theorem statementOf_counts (hg : Steers g) (top : Bool) (hs : Tame s) :
    Ensures False (g.statementOf top) s fun t s' =>
      Took (Aimed s.env) [] s s' [t] ∧ s'.pendingLabels = [] := by
  refine (idle_takeComments s).bind fun comments s₁ hv => ?_
  refine ensures_get (ensures_modify ?_)
  have h₁ := (Took.refl (P := fun _ => True) hs).still hv
  have hsettled : Tame { s₁ with pendingLabels := [] } := h₁.tame
  refine (bareStatement_counts hg hsettled rfl).bind fun t s₂ h₂ => ensures_pure ?_
  have hbehind : State.behind { s₁ with pendingLabels := [] } s₁.pendingLabels = s.env := by
    obtain ⟨henv, -, -, -⟩ := State.View.mk.inj hv
    exact henv
  rw [hbehind] at h₂
  obtain ⟨id, data, children⟩ := t
  obtain ⟨data', hnode, halike, haimed⟩ := withComments_alike
    (rfl : PropertyKind.comments.isComments = true) comments id data children
  rw [hnode]
  have h₃ := h₂.alike halike (haimed _ (h₂.all _ (by simp)))
  have hpending : s₂.pendingLabels = [] := h₂.pending rfl
  refine ⟨?_, hpending⟩
  obtain ⟨henv, hfunction, hfunctions, hledger⟩ := State.View.mk.inj hv
  obtain ⟨htargets, hlabels, -⟩ := Env.mk.inj henv
  have hgoals : s₁.goals = s.goals := by simp only [State.goals, htargets, hlabels]
  have hknown : s₁.known = s.known := by simp only [State.known, hgoals, hfunction]
  refine ⟨h₃.targets.trans htargets, h₃.labels.trans hlabels, h₃.function?.trans hfunction,
    fun _ => hpending, h₃.functions.trans (congrArg (· ++ _) hfunctions), hfunction ▸ h₃.nested,
    hs, ?_, h₃.all⟩
  · have htally : Tally ([] ++ s₁.goals) ([] ++ s₁.known) s₁.ledger s₂.ledger _ := h₃.tally
    rwa [hgoals, hknown, hledger] at htally

theorem steers_step (hg : Steers g) : Steers (step g) where
  statement top _ hs := statementOf_counts hg top hs
  assignment := assignmentOf_counts hg
  expression := expressionOf_counts hg
  unary := unaryOf_counts hg
  member := memberOf_counts hg

theorem steers_nested (depth : Nat) : Steers (nested depth) := by
  induction depth with
  | zero =>
    exact ⟨fun _ _ _ => ensures_unexpected, fun _ _ _ => ensures_unexpected,
      fun _ _ _ => ensures_unexpected, fun _ _ => ensures_unexpected,
      fun _ _ _ => ensures_unexpected⟩
  | succ depth ih =>
    have hstep := steers_step ih
    exact ⟨hstep.statement, hstep.assignment, hstep.expression, hstep.unary, hstep.member⟩

theorem scriptNode_facts (source : String) (line lastLine : Nat) (scope : Scope) :
    (scriptNode source line lastLine scope).refs = scope.functions
      ∧ (scriptNode source line lastLine scope).properties.get? .jumps = none
      ∧ (scriptNode source line lastLine scope).properties.get? .functions
        = some (.nodes scope.functions) := by
  refine ⟨?_, rfl, rfl⟩
  · simp [scriptNode, Node.refs, Node.script, Node.leaf, Node.put, Properties.put,
      Properties.putIn, PropertyValue.refs]

theorem script_counts (hg : Steers g) (source : String) (line : Nat) (hs : Tame s)
    (hp : s.pendingLabels = []) (hfunctions : s.scope.functions = []) :
    Ensures False (g.script source line) s fun t s' => Took (Aimed s.env) [] s s' [t]
      ∧ t.data.properties.get? .functions = some (.nodes (Tree.directFunctions t.children)) := by
  refine idle_advance.next (.refl (P := Aimed s.env) hs) fun _ s₁ h₁ => ?_
  refine ensures_freshId' ?_
  have hopening : Took (Aimed s.env) [] s₁.opening s₁.opening [] := .refl h₁.tame_opening
  have hp₁ : s₁.opening.pendingLabels = [] := h₁.pending hp
  refine (itemsUntil_counts [] hopening fun s' ts h =>
    statement_next hg (h₁.env hp) hp₁ h).bind fun statements s₂ ⟨rest, hrest, h₂⟩ => ?_
  subst hrest
  refine idle_takeComments.next h₂ fun comments s₃ h₃ => ensures_get (ensures_pure ?_)
  obtain ⟨data, hnode, halike, haimed⟩ := withComments_alike
    (rfl : PropertyKind.trailingComments.isComments = true) comments ⟨s₁.nextId⟩
    (scriptNode source line s₃.current.line s₃.scope) statements
  rw [hnode]
  obtain ⟨hrefs, hnone, hlist⟩ := scriptNode_facts source line s₃.current.line s₃.scope
  have hfound : s₃.scope.functions = Tree.directFunctions statements := by
    have hstart : s₁.scope.functions = s.scope.functions := by simpa using h₁.functions
    rw [h₃.functions, State.opening, hstart, hfunctions]
    rfl
  have hinside : ∀ r ∈ data.refs, r ∈ Tree.ids ([] ++ statements) := fun r hr => by
    have hr := halike.refs r hr
    rw [hrefs, hfound] at hr
    exact Tree.directFunctions_subset _ r hr
  have htag : data.tag = .script := halike.tag
  refine ⟨h₁.closed h₃ rfl (by simp [Tree.tag, Tree.data, htag]) (fun htally => ?_)
    (haimed _ (aimed_node rfl rfl ?_)), ?_⟩
  · refine h₁.tally.node_unaimed rfl htally h₁.covers goals_known ?_ hinside
      (halike.jumps.trans hnone) fun h => ?_
    · simp [Tree.isJump, Tree.tag, Tree.data, htag]
    · simp [Tree.tag, Tree.data, htag] at h
  · rw [settled_env hp]
    exact h₃.all
  · have hall := halike.functions.trans hlist
    rwa [hfound] at hall

end Grammar
end ScriptPress
