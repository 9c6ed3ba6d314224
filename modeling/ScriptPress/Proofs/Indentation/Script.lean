import ScriptPress.Proofs.Indentation.Statement
import ScriptPress.Proofs.Reading.Script
import ScriptPress.Session

/-! # Indented scripts

In the expanded text of a script every statement that is no braced body and no `if` behind an `else`
begins a line of its own, in the column of its depth, and so does every clause of a switch.
-/
namespace ScriptPress
open Lexer Tree Render Writer

variable {o : RenderOptions} {w : Writer} {xs : List WriterStep} {n k : Nat} {m l : Indented}

/-- What a writer puts down ends up in its text, but for line feeds at the end. -/
theorem Writer.suffix_dropBlankLines {c : Char} {back text : List Char} (hc : c ≠ '\n')
    (h : c :: back <:+ text) : c :: back <:+ dropBlankLines text := by
  fun_induction dropBlankLines text with
  | case1 rest ih =>
    rcases List.suffix_cons_iff.mp h with heq | h
    · exact absurd (List.cons.inj heq).1 hc
    · exact ih h
  | case2 text => exact h

theorem Writer.finish_suffix {c : Char} {back : List Char} (hc : c ≠ '\n')
    (h : c :: back <:+ w.written) : ∃ rest, w.finish.toList = back.reverse ++ c :: rest := by
  have hkept : c :: back <:+ if w.compact then w.written
      else dropBlankLines (if w.atLineStart then w.written else '\n' :: w.written) := by
    split
    · exact h
    · refine suffix_dropBlankLines hc ?_
      split
      · exact h
      · exact h.trans (List.suffix_cons ..)
  obtain ⟨more, hmore⟩ := hkept
  refine ⟨more.reverse, ?_⟩
  rw [finish, String.toList_ofList, ← hmore]
  simp

theorem Writer.run_take (w : Writer) (xs : List WriterStep) (h : n ≤ k) :
    w.run (xs.take k) = (w.run (xs.take n)).run ((xs.drop n).take (k - n)) := by
  rw [← run_append, ← List.take_add, Nat.add_sub_cancel' h]

/-- The first token of a line makes the text longer. -/
theorem Writer.length_first {s : WriterStep} {t : Written} {c : Char} {rest : List Char}
    (hcompact : w.compact = false) (howes : w.owesSemicolon = false)
    (hline : w.atLineStart = true) (hs : s.written? = some t) (htext : t.text = c :: rest)
    (more : List WriterStep) : w.written.length < (w.run (s :: more)).written.length := by
  have hgrows := (suffix_first hcompact howes hline hs htext).trans (suffix_run (w.step s) more)
  have hlength := hgrows.length_le
  simp only [List.length_cons, List.length_append] at hlength
  change _ < ((w.step s).run more).written.length
  omega

/-- A statement that begins later begins on another line. -/
theorem Begins.lines (h : Begins o w xs n m) (h' : Begins o w xs k l) (hlt : n < k) :
    (w.run (xs.take n)).written.length < (w.run (xs.take k)).written.length := by
  obtain ⟨s, more, t, c, rest, hsteps, hs, htext, -⟩ := h.leads
  obtain ⟨post, hdrop⟩ := h.steps
  obtain ⟨i, rfl⟩ := Nat.exists_eq_add_of_lt hlt
  have hrun : w.run (xs.take (n + i + 1)) = (w.run (xs.take n)).run
      ((((if m.setBack then [WriterStep.setBackLine] else []) ++ s :: more) ++ post).take
        (i + 1)) := by
    rw [run_take w xs hlt.le, ← hdrop, hsteps, Nat.add_assoc, Nat.add_sub_cancel_left]
  have haligned := h'.aligned
  have hstarts := h'.startsLine
  have ha := h.aligned
  have hline := h.startsLine
  rw [hrun] at haligned hstarts ⊢
  cases hback : m.setBack with
  | false =>
    rw [hback] at haligned hstarts
    exact Writer.length_first ha.compact ha.owes hline hs htext _
  | true =>
    rw [hback] at haligned hstarts
    cases i with
    | zero =>
      -- a line that is set back and has not begun is no place for a statement
      have hset := (haligned.line hstarts).1
      cases hset
    | succ i => exact Writer.length_first (w := setBackLine _) ha.compact ha.owes hline hs htext _

/-- A line of a text that begins, behind what stands before it, with the indentation of a column. -/
structure Layout.BeginsLine (layout : Layout) (column : Nat) (before text : List Char) : Prop where
  fresh : before = [] ∨ before.getLast? = some '\n'
  indented : ∃ c rest, isSpace c = false
    ∧ text = before ++ layout.indentation column ++ c :: rest

theorem Begins.beginsLine (h : Begins o w xs n m) : o.layout.BeginsLine (m.column o.layout)
    (w.run (xs.take n)).written.reverse (w.run xs).finish.toList := by
  obtain ⟨c, hc, hwritten⟩ := h.leads.written h.aligned h.startsLine
  obtain ⟨post, hdrop⟩ := h.steps
  have hrun : w.run xs = ((w.run (xs.take n)).run (m.steps o)).run post := by
    rw [← run_append, ← run_append, hdrop, List.take_append_drop]
  have hfeed : c ≠ '\n' := by
    rintro rfl
    exact absurd (isSpace_loose '\n' (by simp)) (by simp [hc])
  have hline := (h.aligned.line h.startsLine).2
  constructor
  · rw [List.getLast?_reverse, List.reverse_eq_nil_iff]
    cases hhead : (w.run (xs.take n)).written with
    | nil => exact Or.inl rfl
    | cons b back =>
      rw [hhead] at hline
      exact Or.inr (congrArg some (hline b rfl))
  · obtain ⟨rest, htext⟩ := finish_suffix hfeed (hwritten.trans (suffix_run _ post))
    exact ⟨c, rest, hc, by rw [hrun, htext]; simp⟩

theorem IsScript.lays {dialect : Dialect} {t : Tree} (h : IsScript dialect t) (o : RenderOptions) :
    Lays o 0 (scriptSteps o t) t.indented := by
  obtain @⟨id, data, parts, hdata, -, hall⟩ := h
  have htag : (Tree.node id data parts).tag = .script := congrArg Core.tag hdata.core
  have hlist : Lays o 0 (listedAt o parts) (parts.flatMap (indentedAt 0 .listed)) :=
    listed_lays fun t ht => (hall t ht).lays o
  rw [scriptSteps, partsOf_eq, listed_eq, indented, htag]
  change Lays o 0 _ (indentedUnder 0 (List.replicate parts.length .listed) parts)
  rw [indentedUnder_replicate le_rfl]
  exact hlist.snoc _ (flat_comments .trailingComments data)

namespace Render

/-- The writer of a script in front of the instruction at a place. -/
def writerAt (o : RenderOptions) (t : Tree) (n : Nat) : Writer :=
  (fresh o).run ((scriptSteps o t).take n)

end Render

/-- What is written of a statement stands at a place of a script. There the writer is at the depth
of the statement, and begins its line in the text. -/
structure Indented.Stands (o : RenderOptions) (t : Tree) (n : Nat) (m : Indented) : Prop where
  steps : m.steps o <+: (scriptSteps o t).drop n
  level : (writerAt o t n).level = m.depth
  line : o.layout.BeginsLine (m.column o.layout) (writerAt o t n).written.reverse
    (Render.script o t).toList

namespace Script
variable {settings : ReadSettings} {text : String} {script : Script}

/-- Indentation follows nesting: in expanded text the statements of a script and the clauses of its
switches begin lines, one behind the other, each behind the indentation of its column; and writing a
statement leaves the level as it was. -/
theorem read_indented (h : read settings text = .ok script) (layout : Layout) (comments : Bool) :
    (∃ places : List Nat,
      places.Pairwise (fun n k =>
        (writerAt (.expanded layout comments) script.tree n).written.length
          < (writerAt (.expanded layout comments) script.tree k).written.length)
      ∧ List.Forall₂ (Indented.Stands (.expanded layout comments) script.tree) places
          script.tree.indented)
    ∧ ∀ (o : RenderOptions) (t : Tree) (role : Role) (w : Writer),
      (w.run (statementAt o t role)).level = w.level := by
  refine ⟨?_, level_statementAt⟩
  let o := RenderOptions.expanded layout comments
  obtain ⟨places, hplaces, hall⟩ := (Grammar.read_sound h).1.lays o
  have hfresh : (fresh o).Aligned o 0 := ⟨rfl, rfl, fun _ => ⟨rfl, nofun⟩⟩
  have hbegins := (hall _ hfresh).2
  have hsome : ∀ n ∈ places, ∃ m, Begins o (fresh o) (scriptSteps o script.tree) n m :=
    ((List.forall₂_and_left _ _).mp (hbegins.imp fun n m hn => ⟨⟨m, hn⟩, hn⟩)).1
  refine ⟨places, hplaces.imp_of_mem fun hn hk hlt => ?_,
    hbegins.imp fun n m hn => ⟨hn.steps, hn.aligned.level, hn.beginsLine⟩⟩
  obtain ⟨m, hm⟩ := hsome _ hn
  obtain ⟨l, hl⟩ := hsome _ hk
  exact hm.lines hl hlt

/-- A label, branches with and without braces, a clause, and a function in an argument. -/
theorem read_indented_branches : ∃ script,
    read {} "l:if(a)b();else if(c)\x7bd()\x7delse switch(e)\x7bcase 1:f(function()\x7bg()\x7d)\x7d"
        = .ok script
      ∧ script.tree.indented.map (·.column { offset := 1, indent := 2 })
        = [0, 1, 3, 3, 3, 3, 5, 7]
      ∧ script.render (.expanded { offset := 1, indent := 2 } false)
        = "l:\n if (a)\n   b();\n else if (c) \x7b\n   d();\n \x7d else\n   switch (e) \x7b\n"
          ++ "   case 1:\n     f(function () \x7b\n       g();\n     \x7d);\n   \x7d\n"
      ∧ ∃ places : List Nat, List.Forall₂
          (Indented.Stands (.expanded { offset := 1, indent := 2 } false) script.tree) places
          script.tree.indented := by
  have hsample : (read {}
      "l:if(a)b();else if(c)\x7bd()\x7delse switch(e)\x7bcase 1:f(function()\x7bg()\x7d)\x7d"
      |>.toOption.map fun script =>
        (script.tree.indented.map (·.column { offset := 1, indent := 2 }),
        script.render (.expanded { offset := 1, indent := 2 } false)))
      = some ([0, 1, 3, 3, 3, 3, 5, 7],
        "l:\n if (a)\n   b();\n else if (c) \x7b\n   d();\n \x7d else\n   switch (e) \x7b\n"
          ++ "   case 1:\n     f(function () \x7b\n       g();\n     \x7d);\n   \x7d\n") := by
    decide +kernel
  obtain ⟨script, hread, hboth⟩ := exists_read hsample
  obtain ⟨hcolumns, hrender⟩ := Prod.mk.inj hboth
  obtain ⟨⟨places, -, hstands⟩, -⟩ := read_indented hread { offset := 1, indent := 2 } false
  exact ⟨script, hread, hcolumns, hrender, places, hstands⟩

end Script
end ScriptPress
