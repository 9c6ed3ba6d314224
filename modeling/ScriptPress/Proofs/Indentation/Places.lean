import Mathlib.Data.List.Forall2
import ScriptPress.Proofs.Indentation.Course
import ScriptPress.Proofs.Indentation.Lines
import ScriptPress.Proofs.Printing.Opening

/-! # The places of lines

What is written of a part begins the lines of its statements at places that do not depend on what
was written before. The places of parts one behind the other are those of each, in their order.
-/
namespace ScriptPress
open Writer

namespace Render

/-- A clause of a switch without the line break and the comments before it. -/
def clauseAt (o : RenderOptions) (t : Tree) : List WriterStep :=
  match t.tag, t.children with
  | .kwCase, test :: parts =>
    .setBackLine :: .token "case" :: exprAt o test { use := .operand Precedence.comma }
      ++ .token ":" :: listedAt o parts
  | _, parts => .setBackLine :: .token "default" :: .token ":" :: listedAt o parts

end Render

open Render

namespace Indented

/-- What is written on the line and below, without the comments before it. -/
def steps (o : RenderOptions) (m : Indented) : List WriterStep :=
  if m.tree.tag == .kwCase || m.tree.tag == .kwDefault then clauseAt o m.tree
  else bareSteps o m.tree

/-- What is written begins with a token that is no white space; its line is set back before it if
it has to be. -/
def Leads (o : RenderOptions) (m : Indented) : Prop :=
  ∃ s more t c rest, m.steps o = (if m.setBack then [.setBackLine] else []) ++ s :: more
    ∧ s.written? = some t ∧ t.text = c :: rest ∧ Lexer.isSpace c = false

end Indented

variable {o : RenderOptions} {d e n : Nat} {w : Writer} {s : WriterStep}
variable {xs ys pre post : List WriterStep} {m : Indented} {ms ks : List Indented}

/-- A statement begins its line at a place of instructions, in the column of its depth. -/
structure Begins (o : RenderOptions) (w : Writer) (xs : List WriterStep) (n : Nat) (m : Indented) :
    Prop where
  leads : m.Leads o
  steps : m.steps o <+: xs.drop n
  aligned : (w.run (xs.take n)).Aligned o m.depth
  startsLine : (w.run (xs.take n)).atLineStart = true

namespace Begins

theorem lt_length (h : Begins o w xs n m) : n < xs.length := by
  obtain ⟨s, more, t, c, rest, hsteps, -⟩ := h.leads
  have hlen := h.steps.length_le
  rw [hsteps, List.length_append, List.length_cons, List.length_drop] at hlen
  omega

/-- Among other instructions. -/
theorem within (h : Begins o (w.run pre) xs n m) (post : List WriterStep) :
    Begins o w (pre ++ xs ++ post) (pre.length + n) m := by
  have hn := h.lt_length.le
  have htake : (pre ++ xs ++ post).take (pre.length + n) = pre ++ xs.take n := by
    rw [List.append_assoc, List.take_length_add_append, List.take_append_of_le_length hn]
  have hdrop : (pre ++ xs ++ post).drop (pre.length + n) = xs.drop n ++ post := by
    rw [List.append_assoc, List.drop_length_add_append, List.drop_append_of_le_length hn]
  refine ⟨h.leads, ?_, ?_, ?_⟩
  · rw [hdrop]
    exact h.steps.trans (List.prefix_append ..)
  · rw [htake, run_append]
    exact h.aligned
  · rw [htake, run_append]
    exact h.startsLine

end Begins

/-- What begins a line stands behind its indentation. -/
theorem Indented.Leads.written (hm : m.Leads o) (h : w.Aligned o m.depth)
    (hline : w.atLineStart = true) : ∃ c, Lexer.isSpace c = false
      ∧ c :: ((o.layout.indentation (m.column o.layout)).reverse ++ w.written)
        <:+ (w.run (m.steps o)).written := by
  obtain ⟨s, more, t, c, rest, hsteps, hs, htext, hc⟩ := hm
  refine ⟨c, hc, ?_⟩
  have hsetBack := (h.line hline).1
  rw [hsteps]
  cases hback : m.setBack with
  | false =>
    have hcolumn : w.column = m.column o.layout := by
      simp [Writer.column, Indented.column, hsetBack, hback, h.layout, h.level, Nat.mul_comm]
    rw [← hcolumn, ← h.layout]
    exact (suffix_first h.compact h.owes hline hs htext).trans (suffix_run _ more)
  | true =>
    have hcolumn : w.setBackLine.column = m.column o.layout := by
      simp [Writer.column, Writer.setBackLine, Indented.column, hback, h.layout, h.level,
        Nat.mul_comm]
    rw [← hcolumn, ← h.layout]
    have hfirst := suffix_first (w := w.setBackLine) h.compact h.owes hline hs htext
    exact hfirst.trans (suffix_run _ more)

/-! ## Laying out -/

/-- Instructions for parts at a depth that begin the lines of statements, in their order, at places
of their own. -/
def Lays (o : RenderOptions) (d : Nat) (xs : List WriterStep) (ms : List Indented) : Prop :=
  ∃ places : List Nat, places.Pairwise (· < ·) ∧ ∀ w : Writer, w.Aligned o d →
    (w.run xs).Aligned o d ∧ List.Forall₂ (Begins o w xs) places ms

/-- A writer in the middle of a line. -/
def midLine (o : RenderOptions) (d : Nat) : Writer :=
  { fresh o with compact := false, level := d, atLineStart := false }

theorem aligned_midLine : (midLine o d).Aligned o d := ⟨rfl, rfl, nofun⟩

/-- No line begins at the first instruction, since the writer may be in the middle of one. -/
theorem places_bounds {places : List Nat} (h : List.Forall₂ (Begins o (midLine o d) xs) places ms) :
    ∀ n ∈ places, 0 < n ∧ n < xs.length := by
  have hall : List.Forall₂ (fun n m => (0 < n ∧ n < xs.length) ∧ Begins o (midLine o d) xs n m)
      places ms := by
    refine h.imp fun n m hn => ⟨⟨Nat.pos_of_ne_zero ?_, hn.lt_length⟩, hn⟩
    rintro rfl
    exact absurd hn.startsLine Bool.false_ne_true
  exact (List.forall₂_and_left _ _ |>.mp hall).1

namespace Lays

/-- Flat steps begin no line. -/
theorem flat (h : ∀ s ∈ xs, s.isFlat = true) : Lays o d xs [] :=
  ⟨[], .nil, fun _ hw => ⟨hw.run h, .nil⟩⟩

theorem nil : Lays o d [] [] := flat (by simp)

theorem append (h : Lays o d xs ms) (h' : Lays o d ys ks) : Lays o d (xs ++ ys) (ms ++ ks) := by
  obtain ⟨places, hplaces, hall⟩ := h
  obtain ⟨places', hplaces', hall'⟩ := h'
  have hlt := places_bounds (hall _ aligned_midLine).2
  refine ⟨places ++ places'.map (xs.length + ·), ?_, fun w hw => ?_⟩
  · refine List.pairwise_append.mpr ⟨hplaces, ?_, fun a ha b hb => ?_⟩
    · exact List.pairwise_map.mpr (hplaces'.imp fun h => Nat.add_lt_add_left h _)
    · obtain ⟨b, -, rfl⟩ := List.mem_map.mp hb
      exact (hlt a ha).2.trans_le (Nat.le_add_right _ _)
  · obtain ⟨hx, hbegins⟩ := hall w hw
    obtain ⟨hy, hbegins'⟩ := hall' _ hx
    rw [run_append]
    refine ⟨hy, List.rel_append (hbegins.imp fun n m h => ?_) ?_⟩
    · have hfirst : Begins o (w.run []) xs n m := h
      simpa using hfirst.within ys
    · refine List.forall₂_map_left_iff.mpr (hbegins'.imp fun n m h => ?_)
      simpa using h.within []

/-- Behind and before instructions that move the level there and back. -/
theorem within (h : Lays o e xs ms) (pre post : List WriterStep)
    (hpre : ∀ w : Writer, w.Aligned o d → (w.run pre).Aligned o e)
    (hpost : ∀ w : Writer, w.Aligned o e → (w.run post).Aligned o d) :
    Lays o d (pre ++ xs ++ post) ms := by
  obtain ⟨places, hplaces, hall⟩ := h
  refine ⟨places.map (pre.length + ·), ?_, fun w hw => ?_⟩
  · exact List.pairwise_map.mpr (hplaces.imp fun h => Nat.add_lt_add_left h _)
  · obtain ⟨hx, hbegins⟩ := hall _ (hpre w hw)
    rw [run_append, run_append]
    exact ⟨hpost _ hx, List.forall₂_map_left_iff.mpr (hbegins.imp fun n m h => h.within post)⟩

theorem cons (hs : s.isFlat = true) (h : Lays o d xs ms) : Lays o d (s :: xs) ms :=
  (flat (List.forall_mem_singleton.mpr hs)).append h

theorem snoc (h : Lays o d xs ms) (ys : List WriterStep) (hys : ∀ s ∈ ys, s.isFlat = true) :
    Lays o d (xs ++ ys) ms := by
  simpa using h.append (flat hys)

theorem behind (h : Lays o d ys ms) (xs : List WriterStep) (hxs : ∀ s ∈ xs, s.isFlat = true) :
    Lays o d (xs ++ ys) ms :=
  (flat hxs).append h

/-- One level deeper. -/
theorem nest (h : Lays o (d + 1) xs ms) : Lays o d (.indent :: xs ++ [.outdent]) ms :=
  h.within [.indent] [.outdent] (fun _ hw => hw.indent) fun _ hw => hw.outdent

/-- Behind the token of a line that is set back. -/
theorem setBack {text : String} (htext : text.toList ≠ []) (h : Lays o d xs ms) :
    Lays o d (.setBackLine :: .token text :: xs) ms := by
  have hrun := h.within [.setBackLine, .token text] []
    (fun _ hw => .of_token hw.frame htext) fun _ hw => hw
  rwa [List.append_nil] at hrun

/-- A statement on a line of its own, behind the steps that end the line before it. -/
theorem line {lead : List WriterStep} (hm : m.Leads o) (hne : lead ≠ [])
    (hlead : ∀ s ∈ lead, s.endsLine = true) (h : Lays o m.depth (m.steps o) ms) :
    Lays o m.depth (lead ++ m.steps o) (m :: ms) := by
  obtain ⟨places, hplaces, hall⟩ := h
  have hpos := places_bounds (hall _ aligned_midLine).2
  refine ⟨lead.length :: places.map (lead.length + ·), ?_, fun w hw => ?_⟩
  · refine List.pairwise_cons.mpr ⟨fun b hb => ?_, ?_⟩
    · obtain ⟨b, hmem, rfl⟩ := List.mem_map.mp hb
      exact Nat.lt_add_of_pos_right (hpos b hmem).1
    · exact List.pairwise_map.mpr (hplaces.imp fun h => Nat.add_lt_add_left h _)
  · have hstart := hw.run fun s hs => WriterStep.isFlat_of_endsLine (hlead s hs)
    obtain ⟨hown, hbegins⟩ := hall _ hstart
    rw [run_append]
    refine ⟨hown, .cons ?_ (List.forall₂_map_left_iff.mpr (hbegins.imp fun n m h => ?_))⟩
    · refine ⟨hm, ?_, ?_, ?_⟩
      · exact ⟨[], (List.append_nil _).trans List.drop_left.symm⟩
      · rwa [List.take_left]
      · rw [List.take_left]
        exact hw.run_startsLine hne hlead
    · simpa using h.within []

theorem flatMap {α : Type} {items : List α} {steps : α → List WriterStep}
    {lines : α → List Indented} (h : ∀ a ∈ items, Lays o d (steps a) (lines a)) :
    Lays o d (items.flatMap steps) (items.flatMap lines) := by
  induction items with
  | nil => exact nil
  | cons a items ih =>
    obtain ⟨ha, hrest⟩ := List.forall_mem_cons.mp h
    exact ha.append (ih hrest)

theorem separated {α : Type} {items : List α} {steps : α → List WriterStep}
    {lines : α → List Indented} (h : ∀ a ∈ items, Lays o d (steps a) (lines a)) :
    Lays o d (separated (items.map steps)) (items.flatMap lines) := by
  induction items with
  | nil => exact nil
  | cons a items ih =>
    obtain ⟨ha, hrest⟩ := List.forall_mem_cons.mp h
    cases items with
    | nil => simpa [Render.separated] using ha
    | cons b items => exact ha.append (.cons rfl (.cons rfl (ih hrest)))

theorem infixed (h : Lays o d xs ms) (h' : Lays o d ys ks) (operator : String) :
    Lays o d (infixed xs operator ys) (ms ++ ks) :=
  h.append (.cons rfl (.cons rfl (.cons rfl h')))

end Lays
end ScriptPress
