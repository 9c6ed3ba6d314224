import ScriptPress.Proofs.Insertion.Statement

/-! # Scripts with their semicolons

The second reading of a whole script: with a semicolon behind each token that ended a statement
without one, a script is read as the same tree, and no semicolon is missing.
-/
namespace ScriptPress

namespace Grammar
variable {places : List Nat} {g g' : Grammar}

theorem mates_step (hg : Mates places g g') : Mates places (step g) (step g') where
  bound := Nat.succ_le_succ hg.bound
  statement := tracks_statementOf hg
  assignment := tracks_assignmentOf hg
  expression := tracks_expressionOf hg
  unary := tracks_unaryOf hg
  member := tracks_memberOf hg

/-- A grammar goes side by side with itself nested to a greater depth. -/
theorem mates_nested {depth depth' : Nat} (h : depth ≤ depth') :
    Mates places (nested depth) (nested depth') := by
  induction depth generalizing depth' with
  | zero =>
    exact ⟨Nat.zero_le _, fun _ => tracks_unexpected, fun _ => tracks_unexpected,
      fun _ => tracks_unexpected, tracks_unexpected, fun _ => tracks_unexpected⟩
  | succ depth ih =>
    obtain ⟨depth', rfl⟩ : ∃ k, depth' = k + 1 := ⟨depth' - 1, by omega⟩
    have hg := mates_step (ih (Nat.le_of_succ_le_succ h))
    exact ⟨h, hg.statement, hg.assignment, hg.expression, hg.unary, hg.member⟩

/-- The reading of a script behind its first token. -/
theorem tracks_scriptRest (hg : Mates places g g') (source : String) (line : Nat) :
    Keeps places
      (freshId >>= fun id => g.itemsUntil (·.tag == .endOfInput) (g.statement true) []
        >>= fun statements => takeComments >>= fun comments => get >>= fun s : State =>
        pure (withComments .trailingComments comments
          (.node id (scriptNode source line s.current.line s.scope) statements)))
      (freshId >>= fun id => g'.itemsUntil (·.tag == .endOfInput) (g'.statement true) []
        >>= fun statements => takeComments >>= fun comments => get >>= fun s : State =>
        pure (withComments .trailingComments comments
          (.node id (scriptNode source line s.current.line s.scope) statements))) := by
  refine blind_freshId.next fun id => ?_
  refine (tracks_statements hg true (fun _ _ _ => rfl) []).next fun statements => ?_
  refine tracks_takeComments.bind fun comments => ?_
  exact tracks_look (fun s => (blind_pure _).settles) fun _ _ _ _ _ => rfl

end Grammar

namespace Script
open Grammar
variable {settings : ReadSettings} {text : String}

theorem opening_placed : (opening settings text).sight.Placed where
  position := rfl
  comments := rfl
  start := Nat.le_refl _
  stop := Nat.le_refl _
  token := fun h => absurd rfl h
  slash := fun h => absurd h (by simp [opening, State.sight, Token.isSlash])
  omitted := fun p hp => absurd hp List.not_mem_nil

/-- Where all semicolons were left out that a script gets, none is owed. -/
theorem settled_of_noted (v : Sight) : Outlook.settled.Holds v.omitted v :=
  ⟨⟨fun _ hp => hp, fun _ hp => .inl hp⟩, fun howes => howes.2 howes.1⟩

/-- With its semicolons a script is read side by side with itself. -/
theorem script_twin {g g' : Grammar} {source : String} {line : Nat} {tree : Tree} {u : State}
    (hg : Mates u.omitted g g')
    (h : g.script source line (opening settings text) = .ok (tree, u)) :
    ∃ u', g'.script source line (opening settings (withSemicolons u.omitted text)) = .ok (tree, u')
      ∧ Twin u.omitted u u' := by
  obtain ⟨_, _, hfirst, hrest⟩ := bind_iff.mp h
  obtain ⟨t, lx, hnext, hr⟩ := advance_inv hfirst
  obtain ⟨rfl, rfl⟩ := Prod.mk.inj hr
  have hplaced : (opening settings text).sight.Placed := opening_placed
  obtain ⟨-, hback⟩ := tracks_scriptRest hg source line
    ((opening settings text).seeing ((opening settings text).sight.after t lx)) tree u
    (hplaced.after hnext) hrest
  obtain ⟨hfits, hgo⟩ := hback (settled_of_noted u.sight)
  have hlexer : (opening settings (withSemicolons u.omitted text)).sight.lexer
      = (opening settings text).sight.lexer.before (marked u.omitted 0 text.toList) 0 := by
    change Lexer.start (withSemicolons u.omitted text) _ _ _ = _
    rw [Lexer.start, withSemicolons, String.toList_ofList]
    rfl
  obtain ⟨t', lx', hnext', hlevel⟩ := Sight.Level.after hplaced hnext hfits.1 hlexer rfl
  obtain ⟨u', hrest', hu'⟩ := hgo _ ⟨_, rfl, .inl ⟨hfits.2, hlevel⟩⟩
  exact ⟨u', (bind_ok (advance_of hnext')).trans hrest', hu'⟩

/-- What a reading of a script is, by its last state. -/
theorem read_of {script : Script} : read settings text = .ok script ↔ ∃ tree u,
    (nested (text.length + 1)).script settings.source settings.startLine (opening settings text)
        = .ok (tree, u)
      ∧ { tree, source := settings.source, dialect := settings.dialect, comments := u.heard,
          tokens := u.tokens, concerns := u.concerns, omitted := u.omitted } = script := by
  unfold read
  cases hrun : (nested (text.length + 1)).script settings.source settings.startLine
    (opening settings text) with
  | error d => simp [StateT.run, hrun]
  | ok p =>
    simp only [StateT.run, hrun, Except.ok.injEq]
    exact ⟨fun h => ⟨p.1, p.2, rfl, h⟩, fun ⟨_, _, hp, h⟩ => hp ▸ h⟩

/-- With its semicolons a script is read as the same tree, with the same concerns but those about
missing semicolons. -/
theorem read_withSemicolons {script : Script} (h : read settings text = .ok script) :
    ∃ script', read settings (withSemicolons script.omitted text) = .ok script'
      ∧ script'.tree = script.tree
      ∧ script'.concerns = script.concerns.filter (·.1 != .missingSemicolon) := by
  obtain ⟨tree, u, hrun, rfl⟩ := read_of.mp h
  have hlength : text.length ≤ (withSemicolons u.omitted text).length := by
    rw [withSemicolons, String.length_ofList, ← String.length_toList]
    exact length_marked
  obtain ⟨_, hrun', k, rfl, -⟩ := script_twin (mates_nested (Nat.succ_le_succ hlength)) hrun
  exact ⟨_, read_of.mpr ⟨_, _, hrun', rfl⟩, rfl, rfl⟩

/-- A semicolon that was left out means the same when it is put in, right behind the last token of
its statement: the script is read as the same tree, and no semicolon is missing. -/
theorem read_inserted {script : Script} (h : read settings text = .ok script) :
    ∃ script', read settings (withSemicolons script.omitted text) = .ok script'
      ∧ script'.tree = script.tree ∧ ∀ c ∈ script'.concerns, c.1 ≠ .missingSemicolon := by
  obtain ⟨script', hread, htree, hconcerns⟩ := read_withSemicolons h
  refine ⟨script', hread, htree, fun c hc => ?_⟩
  rw [hconcerns] at hc
  simpa using (List.mem_filter.mp hc).2

/-- A script with a restricted statement, a step on a line of its own, and a function whose last
statement ends at its brace. -/
theorem read_inserted_step : ∃ script script',
    read {} "function f()\x7breturn\na\x7d b\n++c" = .ok script
      ∧ withSemicolons script.omitted "function f()\x7breturn\na\x7d b\n++c"
        = "function f()\x7breturn;\na;\x7d b;\n++c;"
      ∧ read {} "function f()\x7breturn;\na;\x7d b;\n++c;" = .ok script'
      ∧ script'.tree = script.tree ∧ ∀ c ∈ script'.concerns, c.1 ≠ .missingSemicolon := by
  have hread : ((read {} "function f()\x7breturn\na\x7d b\n++c").toOption.map fun script =>
      withSemicolons script.omitted "function f()\x7breturn\na\x7d b\n++c")
      = some "function f()\x7breturn;\na;\x7d b;\n++c;" := by
    decide +kernel
  cases h : read {} "function f()\x7breturn\na\x7d b\n++c" with
  | error problem =>
    rw [h] at hread
    cases hread
  | ok script =>
    rw [h] at hread
    have htext := Option.some.inj hread
    obtain ⟨script', hagain, hsame⟩ := read_inserted h
    exact ⟨script, script', rfl, htext, htext ▸ hagain, hsame⟩

end Script
end ScriptPress
