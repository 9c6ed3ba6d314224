import ScriptPress.Proofs.Dialects.Statement
import ScriptPress.Proofs.Reading.Script

/-! # Scripts in later dialects

Dialects are upward compatible: a script of one dialect is the same script in every later one,
unless a name of it has become a keyword.
-/
namespace ScriptPress

namespace Grammar
variable {w : Dialect} {g : Grammar}

theorem Lasts.step (hg : g.Lasts w) : (step g).Lasts w :=
  ⟨rises_statementOf hg, rises_assignmentOf hg, rises_expressionOf hg, rises_unaryOf hg,
    rises_memberOf hg⟩

theorem lasts_nested (depth : Nat) : (nested depth).Lasts w := by
  induction depth with
  | zero =>
    exact ⟨fun _ => rises_unexpected, fun _ => rises_unexpected, fun _ => rises_unexpected,
      rises_unexpected, fun _ => rises_unexpected⟩
  | succ depth ih =>
    have hstep := ih.step
    exact ⟨hstep.statement, hstep.assignment, hstep.expression, hstep.unary, hstep.member⟩

theorem rises_script (hg : g.Lasts w) (source : String) (line : Nat) :
    Rises w (g.script source line) := by
  refine rises_advance.bind fun _ => rises_freshId.bind fun _ => ?_
  refine (rises_itemsUntil (hg.statement true) []).bind fun _ => rises_takeComments.bind fun _ => ?_
  exact rises_ask (fun s => rises_pure _ s) fun _ => rfl

/-- Every token that was taken of a text is one of its tokens. -/
theorem State.mem_tokens {s : State} {t : Token} (ht : t ∈ s.taken) (hne : t.tag ≠ .endOfInput) :
    t ∈ s.tokens := by
  rw [State.tokens, List.mem_filter, List.mem_reverse]
  exact ⟨ht, by simpa using hne⟩

end Grammar

namespace Script
variable {settings : ReadSettings} {text : String} {script : Script} {w : Dialect}

/-- A text that is a script of one dialect is the same script in a later one, where none of the
names among its tokens is a keyword. -/
theorem read_later (h : read settings text = .ok script)
    (hw : w.atLeast settings.dialect = true)
    (hnames : ∀ t ∈ script.tokens, t.tag = .identifier → keyword? t.shown w = none) :
    read { settings with dialect := w } text = .ok { script with dialect := w } := by
  unfold read at h ⊢
  dsimp only at h ⊢
  cases hrun : (Grammar.nested (text.length + 1)).script settings.source settings.startLine
    (opening settings text) with
  | error d =>
    rw [StateT.run, hrun] at h
    cases h
  | ok r =>
    obtain ⟨tree, s⟩ := r
    rw [StateT.run, hrun] at h
    cases h
    have hsteady : Grammar.Steady settings.dialect (opening settings text) :=
      ⟨rfl, by simp [opening], rfl, by simp [opening]⟩
    obtain ⟨hdialect, hend⟩ := Grammar.ensures_ok
      (Grammar.script_ends (Grammar.sound_nested settings.dialect _) hsteady rfl) hrun
    have hsuits : s.Suits w := by
      refine ⟨hdialect ▸ hw, fun t ht htag => ?_⟩
      have hne : t.tag ≠ .endOfInput := by
        rw [htag]
        decide
      rcases List.mem_cons.mp ht with rfl | ht
      · exact absurd hend hne
      · exact hnames t (Grammar.State.mem_tokens ht hne) htag
    obtain ⟨-, hrun'⟩ := Grammar.rises_script (Grammar.lasts_nested _) _ _ _ _ _ hrun hsuits
    have hopening : opening { settings with dialect := w } text
        = (opening settings text).raised w := rfl
    rw [StateT.run, hopening, hrun']
    rfl

/-- A loop and a regular expression, which a dialect with exceptions still has. -/
theorem read_later_loop : ∃ script,
    read { dialect := .v12 } "do a.tried=/c/\nwhile(b)" = .ok script
      ∧ (script.tokens.filter (·.tag == .identifier)).map Token.shown = ["a", "tried", "b"]
      ∧ read { dialect := .v14 } "do a.tried=/c/\nwhile(b)"
        = .ok { script with dialect := .v14 } := by
  have hsample : ((read { dialect := .v12 } "do a.tried=/c/\nwhile(b)").toOption.map
      fun script => (script.tokens.filter (·.tag == .identifier)).map Token.shown)
        = some ["a", "tried", "b"] := by
    decide +kernel
  have hplain : ∀ name ∈ ["a", "tried", "b"], keyword? name .v14 = none := by decide +kernel
  obtain ⟨script, hread, hshown⟩ := exists_read hsample
  have hnames : ∀ t ∈ script.tokens, t.tag = .identifier → keyword? t.shown .v14 = none := by
    intro t ht htag
    apply hplain
    rw [← hshown]
    exact List.mem_map_of_mem (List.mem_filter.mpr ⟨ht, by simp [htag]⟩)
  have hlater := read_later (w := .v14) hread (by decide) hnames
  exact ⟨script, hread, hshown, hlater⟩

end Script
end ScriptPress
