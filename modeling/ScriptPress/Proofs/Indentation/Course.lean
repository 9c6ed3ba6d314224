import ScriptPress.Proofs.Indentation.Level
import ScriptPress.Proofs.Printing.Alone

/-! # Lines begin at their columns

Between two instructions a writer of expanded output is aligned: a line that has not begun yet is
not set back. Every instruction but those of the level and the setback keeps it so. The first token
of a line then stands behind the indentation of the column, and what is written stays.
-/
namespace ScriptPress

/-- A step that leaves the level and the setback alone. -/
@[simp] def WriterStep.isFlat : WriterStep → Bool
  | .indent | .outdent | .setBackLine => false
  | _ => true

/-- A step behind which the writer of expanded output is at the start of a line. -/
@[simp] def WriterStep.endsLine : WriterStep → Bool
  | .newline | .blankLine | .comment _ => true
  | _ => false

theorem WriterStep.isFlat_of_endsLine {step : WriterStep} (h : step.endsLine = true) :
    step.isFlat = true := by
  cases step with
  | newline | blankLine | comment _ => rfl
  | _ => cases h

theorem Written.Genuine.head_not_space {d : Dialect} {t : Written} (h : t.Genuine d) :
    ∀ c ∈ t.text.head?, Lexer.isSpace c = false := by
  obtain ⟨kind, text⟩ := t
  cases kind with
  | plain => exact Lexer.IsLexeme.head_not_space h
  | number => exact Lexer.IsLexeme.head_not_space h
  | regExp =>
    intro c hc
    obtain ⟨-, body, rfl, -⟩ := h
    obtain rfl : '/' = c := by simpa using hc
    decide

namespace Writer
variable {o : RenderOptions} {d : Nat} {w : Writer} {s : WriterStep} {xs : List WriterStep}

/-- A token without characters is none. -/
theorem token_nil {text : String} (h : text.toList = []) : w.token text = w := by rw [token, h]

/-- Behind a token no semicolon is owed and the line has begun. -/
theorem token_begins {text : String} (htext : text.toList ≠ []) :
    (w.token text).owesSemicolon = false ∧ (w.token text).atLineStart = false := by
  obtain ⟨first, rest, htext⟩ := List.exists_cons_of_ne_nil htext
  have hfirst : text.toList.head? = some first := by rw [htext]; rfl
  rw [token_eq hfirst]
  exact ⟨(put_kept _ _ _).1.trans (settle_kept _ _).1, rfl⟩

/-- A writer of expanded output at a depth, between two instructions. -/
structure Aligned (o : RenderOptions) (d : Nat) (w : Writer) : Prop where
  frame : w.frame = (false, o.layout, d)
  owes : w.owesSemicolon = false
  line : w.atLineStart = true → w.setBack = false ∧ ∀ c ∈ w.written.head?, c = '\n'

namespace Aligned

theorem compact (h : w.Aligned o d) : w.compact = false := congrArg (·.1) h.frame

theorem layout (h : w.Aligned o d) : w.layout = o.layout := congrArg (·.2.1) h.frame

theorem level (h : w.Aligned o d) : w.level = d := congrArg (·.2.2) h.frame

/-- A token sets the writer straight, even if its line was set back. -/
theorem of_token {text : String} (hframe : w.frame = (false, o.layout, d))
    (htext : text.toList ≠ []) : (w.token text).Aligned o d := by
  obtain ⟨howes, hbegun⟩ := token_begins (w := w) htext
  exact ⟨(frame_token text).trans hframe, howes, fun hline => by simp [hbegun] at hline⟩

theorem token (h : w.Aligned o d) (text : String) : (w.token text).Aligned o d := by
  by_cases htext : text.toList = []
  · rwa [token_nil htext]
  · exact .of_token h.frame htext

theorem newline (h : w.Aligned o d) : w.newline.Aligned o d := by
  refine ⟨frame_newline.trans h.frame, newline_owes.trans h.owes, ?_⟩
  unfold Writer.newline
  split
  · exact h.line
  · exact fun _ => ⟨rfl, by simp [push]⟩

theorem blankLine (h : w.Aligned o d) : w.blankLine.Aligned o d := by
  rcases blankLine_cases h.compact with hsame | hpush
  · rw [hsame]
    exact h.newline
  · obtain ⟨hframe, howes, hline⟩ := h.newline
    rw [hpush]
    exact ⟨hframe, howes, fun hstart => ⟨(hline hstart).1, by simp [push]⟩⟩

theorem comment (h : w.Aligned o d) (text : String) : (w.comment text).Aligned o d := by
  have hbegun : (w.newline.writeIndent.raw text.toList).Aligned o d :=
    ⟨h.newline.frame, h.newline.owes, nofun⟩
  rw [Writer.comment, if_neg (by simp [h.compact])]
  exact hbegun.newline

theorem space (h : w.Aligned o d) : w.space.Aligned o d := by
  unfold Writer.space
  split
  · exact h
  · next hstart =>
    refine ⟨h.frame, h.owes, fun hline => ?_⟩
    have hbegun : w.atLineStart = true := hline
    simp [hbegun] at hstart

/-- A flat step keeps the writer aligned. -/
theorem step (h : w.Aligned o d) (hs : s.isFlat = true) : (w.step s).Aligned o d := by
  cases s with
  | token text => exact h.token text
  | regExp text | number text =>
    obtain ⟨hframe, howes, hline⟩ := h.token text
    exact ⟨hframe, howes, hline⟩
  | comment text => exact h.comment text
  | space => exact h.space
  | semicolon =>
    rw [Writer.step, Writer.semicolon, if_neg (by simp [h.compact])]
    exact h.token ";"
  | hardSemicolon => exact h.token ";"
  | newline => exact h.newline
  | blankLine => exact h.blankLine
  | missing => exact h
  | indent | outdent | setBackLine => cases hs

theorem run (h : w.Aligned o d) (hs : ∀ s ∈ xs, s.isFlat = true) : (w.run xs).Aligned o d := by
  induction xs generalizing w with
  | nil => exact h
  | cons s xs ih =>
    obtain ⟨hhere, hrest⟩ := List.forall_mem_cons.mp hs
    exact ih (h.step hhere) hrest

theorem indent (h : w.Aligned o d) : w.indent.Aligned o (d + 1) := by
  refine ⟨?_, h.owes, h.line⟩
  rw [Writer.frame, Writer.indent, h.compact, h.layout, h.level]

theorem outdent (h : w.Aligned o (d + 1)) : w.outdent.Aligned o d := by
  refine ⟨?_, h.owes, h.line⟩
  rw [Writer.frame, Writer.outdent, h.compact, h.layout, h.level, Nat.add_sub_cancel]

theorem startsLine (h : w.Aligned o d) (hs : s.endsLine = true) :
    (w.step s).atLineStart = true := by
  cases s with
  | newline => exact newline_lineStart h.compact
  | blankLine =>
    rcases blankLine_cases h.compact with hsame | hpush
    · rw [Writer.step, hsame]
      exact newline_lineStart h.compact
    · rw [Writer.step, hpush]
      exact newline_lineStart h.compact
  | comment text => exact (comment_kept h.compact).1
  | _ => cases hs

/-- Behind steps that end lines, of which there is one at least, a line starts. -/
theorem run_startsLine (h : w.Aligned o d) (hne : xs ≠ []) (hs : ∀ s ∈ xs, s.endsLine = true) :
    (w.run xs).atLineStart = true := by
  have hinit : (w.run xs.dropLast).Aligned o d :=
    h.run fun s hmem => WriterStep.isFlat_of_endsLine (hs s ((List.dropLast_sublist xs).mem hmem))
  rw [← List.dropLast_concat_getLast hne, run_append]
  exact hinit.startsLine (hs _ (List.getLast_mem hne))

end Aligned

/-! ## What is written -/

theorem suffix_settle (w : Writer) (next : List Char) : w.written <:+ (w.settle next).written := by
  obtain ⟨more, hmore⟩ := settle_grows w next
  exact ⟨more, hmore.symm⟩

theorem suffix_push (w : Writer) (text : List Char) : w.written <:+ (w.push text).written :=
  List.suffix_append ..

theorem suffix_separate (w : Writer) (first : Char) : w.written <:+ (w.separate first).written := by
  unfold separate
  split
  · exact suffix_push w _
  · split
    · exact suffix_push w _
    · exact List.suffix_rfl

theorem suffix_token (w : Writer) (text : String) : w.written <:+ (w.token text).written := by
  cases htext : text.toList with
  | nil => simp [token_nil htext]
  | cons first rest =>
    have hfirst : text.toList.head? = some first := by rw [htext]; rfl
    rw [token_eq hfirst]
    exact (suffix_settle w _).trans ((suffix_separate _ first).trans (List.suffix_append ..))

theorem suffix_newline (w : Writer) : w.written <:+ w.newline.written := by
  unfold newline
  split
  · exact List.suffix_rfl
  · exact suffix_push w _

/-- A writer never takes back what it has written. -/
theorem suffix_step (w : Writer) (step : WriterStep) : w.written <:+ (w.step step).written := by
  cases step with
  | token text | regExp text | number text => exact suffix_token w text
  | hardSemicolon => exact suffix_token w ";"
  | newline => exact suffix_newline w
  | indent | outdent | setBackLine | missing => exact List.suffix_rfl
  | semicolon =>
    simp only [Writer.step, semicolon]
    split
    · exact List.suffix_rfl
    · exact suffix_token w ";"
  | space =>
    simp only [Writer.step, space]
    split
    · exact List.suffix_rfl
    · exact suffix_push w _
  | blankLine =>
    simp only [Writer.step, blankLine]
    split
    · exact List.suffix_rfl
    · split
      · exact suffix_newline w
      · exact suffix_newline w
      · exact (suffix_newline w).trans (suffix_push _ _)
  | comment text =>
    simp only [Writer.step, comment]
    split
    · exact List.suffix_rfl
    · refine (suffix_newline w).trans (.trans ?_ (suffix_newline _))
      exact (suffix_push w.newline _).trans (List.suffix_append ..)

theorem suffix_run (w : Writer) (xs : List WriterStep) : w.written <:+ (w.run xs).written := by
  induction xs generalizing w with
  | nil => exact List.suffix_rfl
  | cons step xs ih => exact (suffix_step w step).trans (ih (w.step step))

/-- The first token of a line stands behind the indentation. -/
theorem suffix_first {t : Written} {c : Char} {rest : List Char} (hcompact : w.compact = false)
    (howes : w.owesSemicolon = false) (hline : w.atLineStart = true)
    (hs : s.written? = some t) (htext : t.text = c :: rest) :
    c :: ((w.layout.indentation w.column).reverse ++ w.written) <:+ (w.step s).written := by
  have hfirst : t.text.head? = some c := by rw [htext]; rfl
  have hsettle : w.settle t.text = w := by
    rw [settle, howes]
    rfl
  have hseparate : w.separate c = w.writeIndent := by
    rw [separate, hline, hcompact]
    rfl
  refine ⟨rest.reverse, ?_⟩
  rw [step_written hs hfirst, hsettle, put, hseparate, htext]
  simp [raw, writeIndent, push]

end Writer
end ScriptPress
