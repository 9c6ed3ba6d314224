import ScriptPress.Proofs.Likeness.Statement
import ScriptPress.Proofs.Progress.Script
import ScriptPress.Proofs.Slashes.Script

/-! # Scripts of like texts

Where a text is a script, another one whose lexer yields like tokens without comments is a script
with the same outline.
-/
namespace ScriptPress

namespace Grammar
variable {all : List Token} {g : Grammar}

theorem Parallel.step (hg : g.Parallel all) : (step g).Parallel all :=
  ⟨fun top _ => mirrors_statementOf hg top, fun noIn _ => mirrors_assignmentOf hg noIn,
    fun noIn _ => mirrors_expressionOf hg noIn, fun _ => mirrors_unaryOf hg,
    fun allowCall _ => mirrors_memberOf hg allowCall, fun noIn => endless_expressionOf noIn⟩

theorem parallel_nested (depth : Nat) : (nested depth).Parallel all := by
  induction depth with
  | zero =>
    exact ⟨fun _ _ => mirrors_unexpected, fun _ _ => mirrors_unexpected,
      fun _ _ => mirrors_unexpected, fun _ => mirrors_unexpected, fun _ _ => mirrors_unexpected,
      fun _ => endless_unexpected⟩
  | succ depth ih => exact nested_succ depth ▸ ih.step

/-- What is read behind the first token. -/
theorem mirrors_scriptBody (hg : g.Parallel all) {source source' : String} {line line' : Nat} :
    Mirrors all false
      (freshId >>= fun id => g.itemsUntil (·.tag == .endOfInput) (g.statement true) []
        >>= fun statements => takeComments >>= fun comments => get >>= fun s =>
          pure (withComments .trailingComments comments
            (.node id (scriptNode source line s.current.line s.scope) statements)))
      (freshId >>= fun id => g.itemsUntil (·.tag == .endOfInput) (g.statement true) []
        >>= fun statements => takeComments >>= fun comments => get >>= fun s =>
          pure (withComments .trailingComments comments
            (.node id (scriptNode source' line' s.current.line s.scope) statements)))
      Tree.outline false := by
  have hends : ∀ t t' : Token, t'.sym = t.sym → (t'.tag == .endOfInput) = (t.tag == .endOfInput) :=
    fun t t' h => by rw [Token.tag_of_sym h]
  refine mirrors_freshId.next fun _ => ?_
  refine (mirrors_itemsUntil hends (hg.statement true) rfl).bind fun _ _ h => ?_
  refine mirrors_takeComments.bind fun _ _ _ => mirrors_get fun s s' hb hlike => ?_
  refine mirrors_pure ?_ s s' hb hlike
  rw [outline_withComments _ _ (by simp), outline_withComments _ _ (by simp)]
  simp [h, (Node.plain_scriptNode _ _ _ _).core]

end Grammar

namespace Script
open Grammar (nested advance advance_of Begun Ahead bind_iff bind_ok)
open Lexer (Matched)
variable {settings settings' : ReadSettings} {text out : String} {depth : Nat} {tree : Tree}
  {s : Grammar.State} {ts ts' : List (Token × List Comment)}

/-- Behind what stands for a token before the first one, two readings are at like places. -/
theorem opening_like (hdialect : settings'.dialect = settings.dialect)
    (hyields : (opening settings text).lexer.Yields ts)
    (hyields' : (opening settings' out).lexer.Yields ts')
    (hmatched : Matched false (ts.map Prod.fst) ts') :
    ∃ u u', advance (opening settings text) = .ok ((opening settings text).current, u)
      ∧ advance (opening settings' out) = .ok ((opening settings' out).current, u')
      ∧ u.taken = [(opening settings text).current] ∧ u.Like u'
      ∧ Ahead ((opening settings text).current :: ts.map Prod.fst) u u' := by
  obtain ⟨t, lx, hnext, hserves⟩ := hyields
  obtain ⟨t', lx', hnext', hserves'⟩ := hyields'
  obtain ⟨p, more, rfl, hface, -⟩ := hserves.face hnext
  obtain ⟨p', more', rfl, hface', -⟩ := hserves'.face hnext'
  obtain ⟨hsym, hline, hnone, hmatched⟩ := hmatched
  have hdialect' : lx'.dialect = lx.dialect :=
    (Lexer.next_read hnext').like.1.trans (hdialect.trans (Lexer.next_read hnext).like.1.symm)
  refine ⟨_, _, advance_of hnext, advance_of hnext', rfl,
    ⟨?_, ?_, hdialect', rfl, rfl, rfl, rfl, rfl⟩,
    false, lx.comments, _, lx'.comments, _, ?_, rfl, hserves, hserves',
    ⟨hsym, hline, hnone, hmatched⟩, ?_⟩
  · exact hface'.trans ((congrArg Sym.face hsym).trans hface.symm)
  · exact fun h => absurd h (Nat.lt_irrefl 1)
  · exact fun h => absurd h (Nat.lt_irrefl 1)
  · have hnone : lx'.comments = [] := hnone
    simp [Grammar.State.seeing, Grammar.Sight.after, Grammar.State.sight, opening, hnone]

/-- A reading that ends well is followed by the reading of a like text. -/
theorem script_mirrors (hdialect : settings'.dialect = settings.dialect)
    (hrun : (nested depth).script settings.source settings.startLine (opening settings text)
      = .ok (tree, s))
    (hyields : (opening settings text).lexer.Yields ts) {first : Token}
    (hfirst : s.taken.reverse = first :: s.tokens) (hts : ts.map Prod.fst = s.tokens ++ [s.current])
    (hyields' : (opening settings' out).lexer.Yields ts')
    (hmatched : Matched false (ts.map Prod.fst) ts') :
    ∃ tree' s', (nested depth).script settings'.source settings'.startLine (opening settings' out)
        = .ok (tree', s') ∧ tree'.outline = tree.outline ∧ s'.heard = [] := by
  obtain ⟨u, u', hadvance, hadvance', htaken, hlike, hahead⟩ :=
    opening_like hdialect hyields hyields' hmatched
  obtain ⟨_, _, hadvance₁, hbody⟩ := bind_iff.mp hrun
  obtain ⟨rfl, rfl⟩ := Prod.mk.inj (Except.ok.inj (hadvance.symm.trans hadvance₁))
  have hb : Begun false u := by
    rw [Begun, htaken]
    exact Nat.zero_lt_one
  obtain ⟨hgrow, -, hgo⟩ := Grammar.mirrors_scriptBody (Grammar.parallel_nested depth) u u' hb hlike
    tree s hbody
  have hall : s.taken.reverse ++ [s.current]
      = (opening settings text).current :: ts.map Prod.fst := by
    obtain ⟨taken, hlast⟩ := hgrow
    rw [← hlast, htaken, List.reverse_append] at hfirst
    rw [hts, ← List.cons_append, (List.cons.inj hfirst).1, ← hfirst, ← hlast, htaken,
      List.reverse_append]
  obtain ⟨tree', s', hbody', houtline, -, -, -, -, -, -, -, -, -, -, -, hheard⟩ :=
    hgo ⟨[s.current], by simp, hall⟩ hahead
  exact ⟨tree', s', (bind_ok hadvance').trans hbody', houtline, hheard⟩

/-- A depth beyond the length of a text makes no difference. -/
theorem script_nested (settings : ReadSettings) {text : String} (h : text.length < depth) :
    (nested depth).script settings.source settings.startLine (opening settings text)
      = (nested (text.length + 1)).script settings.source settings.startLine
        (opening settings text) := by
  rw [Grammar.nested_eq depth]
  exact (Grammar.onward_script (Grammar.concurring_nested h (nested 0)) _ _ _
    (opening_under settings text)).same.symm

/-- A text whose lexer yields tokens like those of a script, without comments, is a script with the
same outline and no comments. -/
theorem read_mirrors {script : Script} (h : read settings text = .ok script)
    (settings' : ReadSettings) (out : String) (hdialect : settings'.dialect = settings.dialect)
    (hlike : ∀ last, last.sym = ⟨.endOfInput, none, none⟩ →
      ∃ ts, (opening settings' out).lexer.Yields ts
        ∧ Matched false (script.tokens ++ [last]) ts) :
    ∃ again, read settings' out = .ok again ∧ again.tree.outline = script.tree.outline
      ∧ again.comments = [] := by
  obtain ⟨s, hrun, htokens, -⟩ := read_run h
  obtain ⟨-, first, ts, last, hyields, hts, hlast, hend, hfirst, -⟩ := script_yields hrun
  obtain ⟨ts', hyields', hmatched⟩ := hlike s.current
    (hlast ▸ hyields.last last (by simp) (hlast.symm ▸ hend))
  have hall : (ts ++ [last]).map Prod.fst = s.tokens ++ [s.current] := by
    rw [List.map_append, hts, List.map_singleton, hlast]
  rw [← htokens, ← hall] at hmatched
  rw [← script_nested settings (Nat.lt_succ_of_le (Nat.le_max_left text.length out.length))] at hrun
  obtain ⟨tree', s', hrun', houtline, hheard⟩ :=
    script_mirrors hdialect hrun hyields hfirst hall hyields' hmatched
  rw [script_nested settings' (Nat.lt_succ_of_le (Nat.le_max_right text.length out.length))]
    at hrun'
  refine ⟨⟨tree', settings'.source, settings'.dialect, s'.heard, s'.tokens, s'.concerns,
    s'.omitted⟩, ?_, houtline, hheard⟩
  rw [read, StateT.run, hrun']

end Script
end ScriptPress
