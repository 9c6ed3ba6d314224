import ScriptPress.Proofs.Effects.Statement
import ScriptPress.Proofs.Shape.Children

/-! # Concerns about statements without an effect

A script that was read is said to be better without its idle statements, each of them and no other.
Only some part of such a statement was asked, though. An effect in a part that was passed over, or
in the other branch of a conditional, is not noticed.
-/
namespace ScriptPress
namespace Grammar
variable {g : Grammar}

theorem reporting_step (hg : Reporting g) : Reporting (step g) where
  statement := statementOf_reports hg
  assignment := assignmentOf_reports hg
  expression := expressionOf_reports hg
  unary := unaryOf_reports hg
  member := memberOf_reports hg

theorem reporting_nested (depth : Nat) : Reporting (nested depth) := by
  induction depth with
  | zero =>
    exact ⟨fun _ => reports_unexpected, fun _ => reports_unexpected, fun _ => reports_unexpected,
      reports_unexpected, fun _ => reports_unexpected⟩
  | succ depth ih =>
    have hstep := reporting_step ih
    exact ⟨hstep.statement, hstep.assignment, hstep.expression, hstep.unary, hstep.member⟩

theorem script_reports (hg : Reporting g) (source : String) (line : Nat) :
    ReportsTree (g.script source line) := by
  refine preserves_advance.reports fun _ => preserves_freshId.reports fun id => ?_
  refine (itemsUntil_reports (hg.statement true)).bind fun statements _ => ?_
  refine preserves_takeComments.reports fun comments => reports_get fun s => ?_
  exact reports_over ((Tree.over_node rfl).withComments comments)

end Grammar

namespace Script
variable {settings : ReadSettings} {text : String} {script : Script}

/-- The idle statements of a script, in the order in which they end. -/
def idle (script : Script) : List Tree := script.tree.postorder.filter Tree.isIdle

/-- The lines on which a script is said to have a statement without an effect. -/
def idleConcerns (script : Script) : List Nat :=
  (script.concerns.filter (·.1 == .noSideEffects)).map (·.2)

theorem idleConcerns_read (h : read settings text = .ok script) :
    script.idleConcerns = script.idle.map Tree.line := by
  unfold read at h
  dsimp only at h
  split at h
  · cases h
  next root s hrun =>
  obtain rfl := Except.ok.inj h
  have hreports := Grammar.script_reports (Grammar.reporting_nested (text.length + 1))
    settings.source settings.startLine
  have hstart : Grammar.Reported [] [] (opening settings text) := rfl
  have hend := (Grammar.ensures_ok (hreports [] _ hstart) hrun).1
  rwa [Grammar.Reported, List.flatMap_singleton] at hend

/-- An expression statement that fits has one expression. -/
theorem exists_expression {u : Tree} (hfits : u.fits = true) (htag : u.tag = .exprStatement) :
    ∃ e, u.children = [e] := by
  rw [Tree.fits, htag] at hfits
  generalize u.children = parts at hfits
  rcases parts with _ | ⟨e, _ | ⟨second, _ | ⟨third, rest⟩⟩⟩
  · cases hfits
  · exact ⟨e, rfl⟩
  · cases hfits
  · cases hfits

/-- The statements of a script that are said to be without an effect are its idle statements, in
their order. In the expression of such a statement some part that was asked is neither an effect nor
a function. There is an effect in it all the same exactly when another part that was asked is one,
or there is one in a part that was passed over. -/
theorem read_idle (h : read settings text = .ok script) :
    script.idleConcerns = script.idle.map Tree.line ∧ ∀ u ∈ script.idle, ∃ e, u.children = [e]
      ∧ (∃ p, e.Asks p ∧ p.isEffect = false ∧ p.tag ≠ .kwFunction)
      ∧ (e.acts = true
        ↔ (∃ p, e.Asks p ∧ p.isEffect = true) ∨ ∃ p, e.Skips p ∧ p.acts = true) := by
  refine ⟨idleConcerns_read h, fun u hu => ?_⟩
  obtain ⟨hin, hidle⟩ := List.mem_filter.mp hu
  rw [Tree.isIdle, Bool.and_eq_true, beq_iff_eq] at hidle
  have hfits := (Grammar.read_sound h).1.fits u ((Tree.mem_postorder _).mp hin)
  obtain ⟨e, he⟩ := exists_expression hfits hidle.1
  have hnone : e.hasEffect = false := by simpa [he] using hidle.2
  exact ⟨e, he, Tree.exists_asked hnone, Tree.acts_iff_parts e⟩

theorem exists_idle {α : Type} {view : Tree → α} {a : α} {rest : List α}
    (h : script.idle.map view = a :: rest) : ∃ u ∈ script.idle, view u = a := by
  obtain ⟨u, others, hidle, hu, -⟩ := List.map_eq_cons_iff.mp h
  exact ⟨u, by simp [hidle], hu⟩

/-- A conditional with nothing in one branch and a call in the other. -/
theorem read_idle_branch : ∃ script u e, read {} "a?f():b;" = .ok script ∧ u ∈ script.idle
    ∧ script.idleConcerns = script.idle.map Tree.line ∧ u.children = [e]
    ∧ ((∃ p, e.Asks p ∧ p.isEffect = true) ∨ ∃ p, e.Skips p ∧ p.acts = true) := by
  have hread : ((read {} "a?f():b;").toOption.map fun script =>
      script.idle.map fun u => u.children.map Tree.acts) = some [[true]] := by
    decide +kernel
  obtain ⟨script, hok, hidle⟩ := exists_read hread
  obtain ⟨hlines, hall⟩ := read_idle hok
  obtain ⟨u, hu, hacts⟩ := exists_idle hidle
  obtain ⟨e, he, -, hparts⟩ := hall u hu
  rw [he] at hacts
  exact ⟨script, u, e, hok, hu, hlines, he, hparts.mp (List.cons.inj hacts).1⟩

/-- The operands of an addition are not asked, so that the call in one of them is not noticed. -/
theorem read_idle_addition : ∃ script u e, read {} "f()+1;" = .ok script
    ∧ script.idleConcerns = [1] ∧ u ∈ script.idle ∧ u.children = [e] ∧ e.hasEffect = false
    ∧ ∃ p ∈ e.nodes .part, p.tree.tag = .call := by
  have hread : ((read {} "f()+1;").toOption.map fun script =>
      (script.idleConcerns, script.idle.map fun u =>
        u.children.map fun e => (e.hasEffect, (e.nodes .part).any (·.tree.tag == .call))))
        = some ([1], [[(false, true)]]) := by
    decide +kernel
  obtain ⟨script, hok, hview⟩ := exists_read hread
  obtain ⟨hlines, hidle⟩ := Prod.mk.inj hview
  obtain ⟨u, hu, hparts⟩ := exists_idle hidle
  obtain ⟨e, he, hcall⟩ := List.map_eq_singleton_iff.mp hparts
  obtain ⟨heffect, hcall⟩ := Prod.mk.inj hcall
  obtain ⟨p, hp, htag⟩ := List.any_eq_true.mp hcall
  exact ⟨script, u, e, hok, hlines, hu, he, heffect, p, hp, beq_iff_eq.mp htag⟩

end Script
end ScriptPress
