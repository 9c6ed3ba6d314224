import ScriptPress.Proofs.Locating.Statement
import ScriptPress.Proofs.Reading.Script
import ScriptPress.Session

/-! # The lines of scripts

Whatever a reading tells of, it tells the line, and the line is one of the text: a problem that
ends it, a concern, a node of the tree. The last line is that of the end of the input.
-/
namespace ScriptPress
open Text (IsLine)

namespace Grammar
variable {source : List Char} {first : Nat} {g : Grammar}

theorem Locating.step (hg : g.Locating source first) : (step g).Locating source first :=
  ⟨locates_statementOf hg, locates_assignmentOf hg, locates_expressionOf hg, locates_unaryOf hg,
    locates_memberOf hg⟩

theorem locating_nested (depth : Nat) : (nested depth).Locating source first := by
  induction depth with
  | zero =>
    exact ⟨fun _ => locates_unexpected, fun _ => locates_unexpected, fun _ => locates_unexpected,
      locates_unexpected, fun _ => locates_unexpected⟩
  | succ depth ih =>
    have hstep := ih.step
    exact ⟨hstep.statement, hstep.assignment, hstep.expression, hstep.unary, hstep.member⟩

/-- A script is read from before its first token, where no token stands in the text yet. -/
theorem locatesAt_script (hg : g.Locating source first) {s : State} {passed : List Char}
    (hcounts : s.lexer.Counts source first passed) (hline : IsLine source first s.current.line)
    (hconcerns : ∀ p ∈ s.concerns, IsLine source first p.2) (name : String) :
    LocatesAt source first (Tree.Located source first) s (g.script name first) := by
  refine (locatesAt_advance hcounts hline hconcerns).bind fun _ _ => ?_
  refine locates_freshId.bind fun _ _ => ?_
  refine (locates_itemsUntil (hg.statement true) AllLocated.nil).bind fun statements h => ?_
  refine locates_takeComments.bind fun _ _ => locates_ask fun t ht => locates_pure ?_ t ht
  exact located_withComments (Tree.located_node.mpr ⟨.first source first, h⟩) _ _

/-- The tree of a script tells the line of the token that ended it. -/
theorem script_endLine {name : String} {line : Nat} {s t : State} {tree : Tree}
    (h : g.script name line s = .ok (tree, t)) :
    tree.data.properties.number? .endLine = some (t.current.line : Int) := by
  obtain ⟨_, s₁, -, h⟩ := bind_iff.mp h
  obtain ⟨id, s₂, -, h⟩ := bind_iff.mp h
  obtain ⟨statements, s₃, -, h⟩ := bind_iff.mp h
  obtain ⟨comments, s₄, -, h⟩ := bind_iff.mp h
  obtain ⟨rfl, rfl⟩ := Prod.mk.inj (Except.ok.inj h)
  unfold withComments
  split <;> rfl

end Grammar

namespace Script
variable {settings : ReadSettings} {text : String}

theorem locatesAt_read (settings : ReadSettings) (text : String) (depth : Nat) :
    Grammar.LocatesAt text.toList settings.startLine (Tree.Located text.toList settings.startLine)
      (opening settings text)
      ((Grammar.nested depth).script settings.source settings.startLine) := by
  have hcounts : (opening settings text).lexer.Counts text.toList settings.startLine [] :=
    Lexer.counts_start text settings.dialect settings.startLine settings.keepComments
  have hline : IsLine text.toList settings.startLine (opening settings text).current.line :=
    .first _ _
  have hconcerns : ∀ p ∈ (opening settings text).concerns,
      IsLine text.toList settings.startLine p.2 := by simp [opening]
  exact Grammar.locatesAt_script (Grammar.locating_nested depth) hcounts hline hconcerns _

/-- A text that is no script is refused on one of its lines. -/
theorem read_problem {d : Diagnostic} (h : read settings text = .error d) :
    IsLine text.toList settings.startLine d.line := by
  have hlocates := locatesAt_read settings text (text.length + 1)
  unfold read at h
  dsimp only at h
  split at h
  · next hrun =>
    obtain rfl := Except.error.inj h
    unfold Grammar.LocatesAt at hlocates
    rw [show (Grammar.nested (text.length + 1)).script settings.source settings.startLine
      (opening settings text) = _ from hrun] at hlocates
    exact hlocates
  · cases h

theorem read_source {script : Script} (h : read settings text = .ok script) :
    script.source = settings.source := by
  unfold read at h
  dsimp only at h
  split at h
  · cases h
  · obtain rfl := Except.ok.inj h
    rfl

/-- The nodes and the concerns of a script are on its lines, and its end is the last of them. -/
theorem read_lines {script : Script} (h : read settings text = .ok script) :
    script.tree.Located text.toList settings.startLine
      ∧ (∀ p ∈ script.concerns, IsLine text.toList settings.startLine p.2)
      ∧ script.tree.data.properties.number? .endLine
        = some ((settings.startLine + Text.lineBreaks text.toList : Nat) : Int) := by
  have hlocates := locatesAt_read settings text (text.length + 1)
  unfold read at h
  dsimp only at h
  split at h
  · cases h
  next tree s hrun =>
  obtain rfl := Except.ok.inj h
  unfold Grammar.LocatesAt at hlocates
  rw [show (Grammar.nested (text.length + 1)).script settings.source settings.startLine
    (opening settings text) = _ from hrun] at hlocates
  obtain ⟨hs, htree⟩ := hlocates
  have hsteady : Grammar.Steady settings.dialect (opening settings text) :=
    ⟨rfl, by simp [opening], rfl, by simp [opening]⟩
  obtain ⟨-, hend⟩ := Grammar.ensures_ok
    (Grammar.script_ends (Grammar.sound_nested settings.dialect _) hsteady rfl) hrun
  refine ⟨htree, hs.concerns, ?_⟩
  rw [Grammar.script_endLine hrun, hs.last hend]

/-- A reading either gives a script, whose warnings and nodes are on lines of the text, none behind
the line where it ends, or fails with the name of the source and such a line. So does the removal
of comments, which counts from line 1. -/
theorem read_located (settings : ReadSettings) (text : String) (locale : Locale) :
    (∀ failure, (read settings text).mapError (Failure.ofDiagnostic settings.source locale)
        = .error failure →
      ∃ line message, failure = .script settings.source line message
        ∧ IsLine text.toList settings.startLine line)
    ∧ (∀ script, read settings text = .ok script →
      (∀ w ∈ script.warnings locale, w.source = settings.source
        ∧ IsLine text.toList settings.startLine w.line)
      ∧ (∀ u ∈ script.tree.preorder, IsLine text.toList settings.startLine u.line)
      ∧ ∃ last : Nat, script.tree.data.properties.number? .endLine = some (last : Int)
        ∧ IsLine text.toList settings.startLine last
        ∧ ∀ u ∈ script.tree.preorder, u.line ≤ last)
    ∧ ∀ d failure, (removeCommentsByTokens text d).mapError
        (Failure.ofDiagnostic settings.source locale) = .error failure →
      ∃ line message, failure = .script settings.source line message
        ∧ IsLine text.toList 1 line := by
  refine ⟨fun failure h => ?_, fun script h => ?_, fun d failure h => ?_⟩
  · cases hread : read settings text with
    | ok script =>
      rw [hread] at h
      cases h
    | error problem =>
      rw [hread] at h
      obtain rfl := Except.error.inj h
      exact ⟨problem.line, _, rfl, read_problem hread⟩
  · obtain ⟨htree, hconcerns, hlast⟩ := read_lines h
    refine ⟨fun w hw => ?_, htree, _, hlast, ⟨Nat.le_add_right _ _, le_rfl⟩,
      fun u hu => (htree u hu).2⟩
    obtain ⟨p, hp, rfl⟩ := List.mem_map.mp hw
    exact ⟨read_source h, hconcerns p hp⟩
  · cases hremove : removeCommentsByTokens text d with
    | ok cleared =>
      rw [hremove] at h
      cases h
    | error problem =>
      rw [hremove] at h
      obtain rfl := Except.error.inj h
      exact ⟨problem.line, _, rfl, removeCommentsByTokens_problem hremove⟩

/-- Every ending of a line counts once, also the one behind the last statement. -/
example : ((read { startLine := 7 } "a\r\nb\rc\n").toOption.map fun script =>
    (script.tree.preorder.map Tree.line, script.tree.data.properties.number? .endLine))
      = some ([7, 7, 7, 8, 8, 9, 9], some 10) := by
  decide +kernel

theorem exists_error {ε α : Type} {e : Except ε α} (h : e.toBool = false) :
    ∃ problem, e = .error problem := by
  cases e with
  | error problem => exact ⟨problem, rfl⟩
  | ok a => cases h

/-- A brace out of place on the second line, two statements of no effect, and a comment that does
not end. -/
theorem read_located_second :
    (∃ failure, (read { startLine := 7 } "a()\r\n\x7d").mapError
        (Failure.ofDiagnostic "<script>" .english) = .error failure
      ∧ ∃ line message, failure = .script "<script>" line message
        ∧ IsLine "a()\r\n\x7d".toList 7 line)
    ∧ (∃ script, read { startLine := 7 } "a;\n/b/;" = .ok script
      ∧ (script.warnings .english).map Warning.line = [7, 8]
      ∧ ∀ w ∈ script.warnings .english, w.source = "<script>" ∧ IsLine "a;\n/b/;".toList 7 w.line)
    ∧ ∃ failure, (removeCommentsByTokens "a\n/*" .v13).mapError
        (Failure.ofDiagnostic "<script>" .english) = .error failure
      ∧ ∃ line message, failure = .script "<script>" line message
        ∧ IsLine "a\n/*".toList 1 line := by
  have hall := fun text => read_located { startLine := 7 } text .english
  refine ⟨?_, ?_, ?_⟩
  · obtain ⟨failure, hread⟩ := exists_error (e := (read { startLine := 7 } "a()\r\n\x7d").mapError
      (Failure.ofDiagnostic "<script>" .english)) (by decide +kernel)
    exact ⟨failure, hread, (hall "a()\r\n\x7d").1 failure hread⟩
  · have hsample : ((read { startLine := 7 } "a;\n/b/;").toOption.map fun script =>
        (script.warnings .english).map Warning.line) = some [7, 8] := by decide +kernel
    obtain ⟨script, hread, hlines⟩ := exists_read hsample
    exact ⟨script, hread, hlines, ((hall "a;\n/b/;").2.1 script hread).1⟩
  · obtain ⟨failure, hremove⟩ := exists_error (e := (removeCommentsByTokens "a\n/*" .v13).mapError
      (Failure.ofDiagnostic "<script>" .english)) (by decide +kernel)
    exact ⟨failure, hremove, (hall "a\n/*").2.2 .v13 failure hremove⟩

end Script
end ScriptPress
