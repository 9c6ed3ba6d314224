import ScriptPress.Proofs.Lexical.Writing

/-! # Writing a part alone

What a compact writer puts down depends on the text before only through its last token. Two writers
whose last tokens ask for a space before the same characters go on alike: each writes the text that
the other writes, behind what it had.
-/
namespace ScriptPress

/-- An instruction whose token, if it writes one at once, has characters. -/
def WriterStep.Speaks (step : WriterStep) : Prop := ∀ t, step.written? = some t → t.text ≠ []

/-- Tokens of instructions that flow have characters. -/
theorem Flows.speaks {d : Dialect} {last : Option Written} {ended : Bool} {steps : List WriterStep}
    (h : Flows d last ended steps) : ∀ s ∈ steps, s.Speaks := by
  induction steps generalizing last ended with
  | nil => simp
  | cons step more ih =>
    rw [List.forall_mem_cons]
    cases step with
    | missing => exact False.elim h
    | token _ | number _ | regExp _ | hardSemicolon =>
      refine ⟨?_, ih h.2.2⟩
      rintro t ⟨⟩
      exact Written.Genuine.ne_nil h.1
    | semicolon | comment _ => exact ⟨nofun, ih h.2⟩
    | _ => exact ⟨nofun, ih h⟩

namespace Writer

/-- Compact writers that go on alike; the second one has more text before. -/
structure Alike (tail : List Char) (w w' : Writer) : Prop where
  compact : w.compact = true
  compact' : w'.compact = true
  written : w'.written = w.written ++ tail
  owes : w'.owesSemicolon = w.owesSemicolon
  regExp : w'.afterRegExp = w.afterRegExp
  number : w'.afterOpenNumber = w.afterOpenNumber
  spaced : ∀ c, w'.needsSpace c = w.needsSpace c
  dash : (w'.lastChar == some '-') = (w.lastChar == some '-')

variable {tail : List Char} {w w' : Writer}

theorem fuses_congr {before before' : Option Char}
    (h : (before == some '-') = (before' == some '-')) (last first : Char) :
    fuses before last first = fuses before' last first := by
  unfold fuses
  split <;> simp_all

theorem needsSpace_congr (hlast : w'.lastChar = w.lastChar)
    (hbefore : (w'.charBefore == some '-') = (w.charBefore == some '-'))
    (hregExp : w'.afterRegExp = w.afterRegExp) (hnumber : w'.afterOpenNumber = w.afterOpenNumber)
    (c : Char) : w'.needsSpace c = w.needsSpace c := by
  unfold needsSpace
  rw [hlast, hregExp, hnumber]
  cases w.lastChar with
  | none => rfl
  | some last => simp only [fuses_congr hbefore]

/-- Spaces between tokens are not remembered. -/
theorem separate_compact (h : w.compact = true) (first : Char) : w.separate first
    = { w with written := (if w.needsSpace first then [' '] else []) ++ w.written } := by
  have hindent : (w.atLineStart && !w.compact) = false := by simp [h]
  rw [separate, hindent, if_neg Bool.false_ne_true]
  split <;> rfl

/-- The same token leaves the writers alike. -/
theorem Alike.raw (h : Alike tail w w') {text : List Char} (hne : text ≠ []) (regExp number : Bool) :
    Alike tail { w.raw text with afterRegExp := regExp, afterOpenNumber := number }
      { w'.raw text with afterRegExp := regExp, afterOpenNumber := number } := by
  obtain ⟨last, rest, hrev⟩ := List.exists_cons_of_ne_nil (List.reverse_ne_nil_iff.mpr hne)
  have hbefore : ((rest.head?.or w'.lastChar) == some '-')
      = ((rest.head?.or w.lastChar) == some '-') := by
    cases rest with
    | nil => exact h.dash
    | cons => rfl
  refine ⟨h.compact, h.compact', ?_, h.owes, rfl, rfl, needsSpace_congr ?_ ?_ rfl rfl, ?_⟩
  · simp [Writer.raw, h.written]
  · rfl
  · simpa [Writer.raw, hrev] using hbefore
  · rfl

/-- What changes neither the text nor what the last token asks for leaves the writers alike. -/
theorem Alike.same {v v' : Writer} (h : Alike tail w w')
    (hv : v.compact = w.compact ∧ v.written = w.written ∧ v.owesSemicolon = w.owesSemicolon
      ∧ v.afterRegExp = w.afterRegExp ∧ v.afterOpenNumber = w.afterOpenNumber
      ∧ v.lastChar = w.lastChar ∧ v.charBefore = w.charBefore)
    (hv' : v'.compact = w'.compact ∧ v'.written = w'.written ∧ v'.owesSemicolon = w'.owesSemicolon
      ∧ v'.afterRegExp = w'.afterRegExp ∧ v'.afterOpenNumber = w'.afterOpenNumber
      ∧ v'.lastChar = w'.lastChar ∧ v'.charBefore = w'.charBefore) : Alike tail v v' := by
  obtain ⟨hcompact, hwritten, howes, hregExp, hnumber, hlast, hbefore⟩ := hv
  obtain ⟨hcompact', hwritten', howes', hregExp', hnumber', hlast', hbefore'⟩ := hv'
  refine ⟨hcompact.trans h.compact, hcompact'.trans h.compact', ?_, ?_, ?_, ?_, fun c => ?_, ?_⟩
  · rw [hwritten, hwritten', h.written]
  · rw [howes, howes', h.owes]
  · rw [hregExp, hregExp', h.regExp]
  · rw [hnumber, hnumber', h.number]
  · rw [needsSpace_congr hlast' (by rw [hbefore']) hregExp' hnumber', h.spaced,
      needsSpace_congr hlast (by rw [hbefore]) hregExp hnumber]
  · rw [hlast, hlast', h.dash]

theorem Alike.owing (h : Alike tail w w') (owes : Bool) :
    Alike tail { w with owesSemicolon := owes } { w' with owesSemicolon := owes } :=
  ⟨h.compact, h.compact', h.written, rfl, h.regExp, h.number, h.spaced, h.dash⟩

theorem Alike.settle (h : Alike tail w w') (next : List Char) :
    Alike tail (w.settle next) (w'.settle next) := by
  unfold Writer.settle
  rw [h.owes]
  split
  · dsimp only
    split
    · exact h.owing false
    · have hput := (h.owing false).raw (List.cons_ne_nil ';' []) w.afterRegExp w.afterOpenNumber
      refine hput.same ⟨rfl, rfl, rfl, rfl, rfl, rfl, rfl⟩ ⟨rfl, rfl, rfl, ?_, ?_, rfl, rfl⟩
      · exact h.regExp
      · exact h.number
  · exact h

theorem Alike.separate (h : Alike tail w w') (first : Char) :
    Alike tail (w.separate first) (w'.separate first) := by
  rw [separate_compact h.compact, separate_compact h.compact', h.spaced first]
  refine ⟨h.compact, h.compact', ?_, h.owes, h.regExp, h.number, h.spaced, h.dash⟩
  simp [h.written]

theorem Alike.put (h : Alike tail w w') {t : Written} (hne : t.text ≠ []) (first : Char) :
    Alike tail (w.put t first) (w'.put t first) := (h.separate first).raw hne _ _

theorem semicolon_compact (h : w.compact = true) :
    w.semicolon = { w with owesSemicolon := true } := if_pos h

/-- Comments and blanks are left out. -/
theorem layout_compact (h : w.compact = true) {step : WriterStep}
    (hs : step = .space ∨ step = .newline ∨ step = .blankLine ∨ ∃ text, step = .comment text) :
    w.step step = w := by
  rcases hs with rfl | rfl | rfl | ⟨text, rfl⟩ <;>
    simp [Writer.step, space, newline, blankLine, comment, h]

/-- One instruction, and the writers go on alike. -/
theorem Alike.step (h : Alike tail w w') {step : WriterStep} (hs : step.Speaks) :
    Alike tail (w.step step) (w'.step step) := by
  cases ht : step.written? with
  | some t =>
    obtain ⟨first, rest, htext⟩ := List.exists_cons_of_ne_nil (hs t ht)
    have hfirst : t.text.head? = some first := by rw [htext]; rfl
    rw [step_written ht hfirst, step_written ht hfirst]
    exact (h.settle t.text).put (hs t ht) first
  | none =>
    cases step with
    | token _ | regExp _ | number _ | hardSemicolon => cases ht
    | semicolon =>
      rw [Writer.step, Writer.step, semicolon_compact h.compact, semicolon_compact h.compact']
      exact h.owing true
    | comment _ | space | newline | blankLine =>
      rw [layout_compact h.compact (by simp), layout_compact h.compact' (by simp)]
      exact h
    | indent | outdent | setBackLine =>
      exact h.same ⟨rfl, rfl, rfl, rfl, rfl, rfl, rfl⟩ ⟨rfl, rfl, rfl, rfl, rfl, rfl, rfl⟩
    | missing => exact h

/-- Instructions write the same text wherever the writer is. -/
theorem Alike.run (h : Alike tail w w') {steps : List WriterStep} (hs : ∀ s ∈ steps, s.Speaks) :
    Alike tail (w.run steps) (w'.run steps) := by
  induction steps generalizing w w' with
  | nil => exact h
  | cons s steps ih =>
    obtain ⟨hhere, hrest⟩ := List.forall_mem_cons.mp hs
    exact ih (h.step hhere) hrest

/-! ## What is written stays -/

theorem settle_grows (w : Writer) (next : List Char) :
    ∃ more, (w.settle next).written = more ++ w.written := by
  unfold settle
  split
  · dsimp only
    split
    · exact ⟨[], rfl⟩
    · exact ⟨[';'], rfl⟩
  · exact ⟨[], rfl⟩

theorem put_written (h : w.compact = true) (t : Written) (first : Char) : (w.put t first).written
    = t.text.reverse ++ (if w.needsSpace first then [' '] else []) ++ w.written := by
  rw [put, separate_compact h]
  simp [raw]

/-- A compact writer never takes back what it has written. -/
theorem step_grows (h : w.compact = true) (step : WriterStep) :
    (w.step step).compact = true ∧ ∃ more, (w.step step).written = more ++ w.written := by
  cases ht : step.written? with
  | some t =>
    cases htext : t.text with
    | nil =>
      cases step with
      | hardSemicolon =>
        cases ht
        cases htext
      | token text | regExp text | number text =>
        obtain rfl : _ = t := Option.some.inj ht
        have hnil : w.token text = w := by
          rw [token, show text.toList = [] from htext]
        simp only [Writer.step, regExp, number, hnil]
        exact ⟨h, [], rfl⟩
      | _ => cases ht
    | cons first rest =>
      have hfirst : t.text.head? = some first := by rw [htext]; rfl
      have hcompact : (w.settle t.text).compact = true := (settle_kept w t.text).2.trans h
      obtain ⟨more, hmore⟩ := settle_grows w t.text
      rw [step_written ht hfirst, put_written hcompact, hmore, ← List.append_assoc]
      exact ⟨(put_kept _ t first).2.trans hcompact, _, rfl⟩
  | none =>
    cases step with
    | token _ | regExp _ | number _ | hardSemicolon => cases ht
    | semicolon =>
      rw [Writer.step, semicolon_compact h]
      exact ⟨h, [], rfl⟩
    | comment _ | space | newline | blankLine =>
      rw [layout_compact h (by simp)]
      exact ⟨h, [], rfl⟩
    | indent | outdent | setBackLine | missing => exact ⟨h, [], rfl⟩

theorem run_grows (h : w.compact = true) (steps : List WriterStep) :
    (w.run steps).compact = true ∧ ∃ more, (w.run steps).written = more ++ w.written := by
  induction steps generalizing w with
  | nil => exact ⟨h, [], rfl⟩
  | cons s steps ih =>
    obtain ⟨hcompact, more, hmore⟩ := step_grows h s
    obtain ⟨hcompact', more', hmore'⟩ := ih hcompact
    exact ⟨hcompact', more' ++ more, by rw [List.append_assoc, ← hmore, ← hmore']; rfl⟩

/-! ## The text of a part -/

theorem run_append (w : Writer) (xs ys : List WriterStep) : w.run (xs ++ ys) = (w.run xs).run ys :=
  List.foldl_append ..

/-- A compact writer at its beginning. -/
def fresh (o : RenderOptions) : Writer := { layout := o.layout, compact := o.compact }

theorem toList_write {o : RenderOptions} (ho : o.compact = true) (steps : List WriterStep) :
    (Render.write o steps).toList = ((fresh o).run steps).written.reverse := by
  have hcompact : ((fresh o).run steps).compact = true := (run_grows ho steps).1
  change ((fresh o).run steps).finish.toList = _
  rw [finish, hcompact, if_pos rfl, String.toList_ofList]

theorem alike_put {t : Written} {first before : Char} (h : w.compact = true)
    (h' : w'.compact = true) (howes : w'.owesSemicolon = w.owesSemicolon) (hw : w.written = [])
    (hspace : w.needsSpace first = false) (hbefore : t.text.reverse.tail.head? = some before) :
    ∃ tail, Alike tail (w.put t first) (w'.put t first) := by
  have hchar : ∀ v : Writer, (v.put t first).charBefore = some before := fun v => by
    rw [put, raw, hbefore]
    rfl
  refine ⟨(if w'.needsSpace first then [' '] else []) ++ w'.written, ?_⟩
  refine ⟨(put_kept _ _ _).2.trans h, (put_kept _ _ _).2.trans h', ?_, ?_, rfl, rfl,
    needsSpace_congr rfl (by rw [hchar, hchar]) rfl rfl, rfl⟩
  · rw [put_written h', put_written h, hspace, hw]
    simp
  · rw [(put_kept _ _ _).1, (put_kept _ _ _).1, howes]

/-- A token of two characters or more makes writers alike, whatever they wrote before. -/
theorem alike_token (h : w.compact = true) (h' : w'.compact = true) (hw : w.written = [])
    (howes : w.owesSemicolon = false) (hlast : w.lastChar = none) {text : String}
    (hlength : 2 ≤ text.toList.length) :
    ∃ tail, Alike tail (w.step (.token text)) (w'.step (.token text)) := by
  obtain ⟨first, second, rest, htext⟩ : ∃ a b rest, text.toList = a :: b :: rest := by
    match ht : text.toList with
    | [] | [_] => simp [ht] at hlength
    | a :: b :: rest => exact ⟨a, b, rest, rfl⟩
  have hfirst : text.toList.head? = some first := by rw [htext]; rfl
  obtain ⟨before, hbefore⟩ : ∃ before, text.toList.reverse.tail.head? = some before := by
    match hr : text.toList.reverse with
    | [] | [_] => simpa [htext] using congrArg List.length hr
    | _ :: before :: _ => exact ⟨before, rfl⟩
  have hkept := settle_kept w text.toList
  have hkept' := settle_kept w' text.toList
  have hsettle : w.settle text.toList = w := by
    rw [settle, howes]
    rfl
  rw [step_written (t := ⟨.plain, text.toList⟩) rfl hfirst,
    step_written (t := ⟨.plain, text.toList⟩) rfl hfirst]
  refine alike_put (hkept.2.trans h) (hkept'.2.trans h') (hkept'.1.trans hkept.1.symm) ?_ ?_ hbefore
  · rw [hsettle, hw]
  · rw [hsettle, needsSpace, hlast]

/-- Instructions that begin with a long token write the same text alone as among others. -/
theorem write_infix {o : RenderOptions} (ho : o.compact = true) {text : String}
    {part steps : List WriterStep} (hlength : 2 ≤ text.toList.length)
    (hs : ∀ s ∈ part, s.Speaks) (h : .token text :: part <:+: steps) :
    (Render.write o (.token text :: part)).toList <:+: (Render.write o steps).toList := by
  obtain ⟨pre, post, rfl⟩ := h
  have hpre : ((fresh o).run pre).compact = true := (run_grows ho pre).1
  obtain ⟨tail, halike⟩ := alike_token (w := fresh o) ho hpre rfl rfl rfl hlength
  have hpart := halike.run hs
  obtain ⟨-, more, hmore⟩ := run_grows hpart.compact' post
  refine ⟨tail.reverse, more.reverse, ?_⟩
  rw [toList_write ho, toList_write ho, run_append, run_append]
  change _ = ((((fresh o).run pre).step (.token text)).run part |>.run post).written.reverse
  rw [hmore, hpart.written]
  simp only [List.reverse_append]
  rfl

end Writer
end ScriptPress
