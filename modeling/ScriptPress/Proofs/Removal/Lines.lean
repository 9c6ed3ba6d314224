import ScriptPress.CommentRemoval
import ScriptPress.Proofs.Lexical.Lexeme

/-! # Trimming the lines of a text

Lines that a comment was cut from lose the white space at their end, and go when nothing else is
left of them. Which lines these are is of no matter here: whichever lines of a text are trimmed,
what a line has up to a character that is not white space stays, and between two such characters
a line feed is never lost altogether.
-/
namespace ScriptPress
namespace CommentRemoval

/-! ## Lines and their texts -/

/-- The characters of items, without the cuts. -/
def chars (items : List Item) : List Char :=
  items.flatMap fun
    | .char c => [c]
    | .cut => []

@[simp] theorem chars_map (text : List Char) : chars (text.map .char) = text := by
  induction text with
  | nil => rfl
  | cons c text ih => exact congrArg (c :: ·) ih

@[simp] theorem chars_append (items more : List Item) :
    chars (items ++ more) = chars items ++ chars more := List.flatMap_append

@[simp] theorem chars_cut (items : List Item) : chars (.cut :: items) = chars items := rfl

/-- The lines of a text, each with its line feed. The characters of the first one so far are kept
with the last one first. -/
def linesOf (sofar : List Char) : List Char → List (List Char)
  | [] => if sofar.isEmpty then [] else [sofar.reverse]
  | c :: rest =>
    if c == '\n' then (c :: sofar).reverse :: linesOf [] rest else linesOf (c :: sofar) rest

theorem linesOf_flatten (sofar text : List Char) :
    (linesOf sofar text).flatten = sofar.reverse ++ text := by
  induction text generalizing sofar with
  | nil => cases sofar <;> simp [linesOf]
  | cons c text ih =>
    rw [linesOf]
    split <;> simp [ih]

theorem closeLines_texts (touched : Bool) (sofar : List Char) (done : List Line) :
    ((closeLines touched sofar done).reverse).map Line.text
      = (done.reverse).map Line.text ++ linesOf sofar [] := by
  cases sofar with
  | nil =>
    cases touched with
    | false => simp [closeLines, linesOf]
    | true => cases done <;> simp [closeLines, linesOf]
  | cons c sofar => simp [closeLines, linesOf]

/-- Cuts decide which lines are touched, never where lines end. -/
theorem linesFrom_texts (touched : Bool) (sofar : List Char) (done : List Line)
    (items : List Item) : (linesFrom touched sofar done items).map Line.text
      = (done.reverse).map Line.text ++ linesOf sofar (chars items) := by
  induction items generalizing touched sofar done with
  | nil => exact closeLines_texts touched sofar done
  | cons item items ih =>
    cases item with
    | cut => exact ih true sofar done
    | char c =>
      have hchars : chars (.char c :: items) = c :: chars items := rfl
      rw [linesFrom, hchars, linesOf]
      split <;> simp [ih]

/-! ## Trimmed texts -/

/-- A text may be left of another one, and of the characters of its first line so far, when some
of its lines are trimmed. -/
def Trims (sofar text out : List Char) : Prop :=
  ∃ lines : List Line, lines.map Line.text = linesOf sofar text
    ∧ lines.flatMap Line.render = out

theorem trims_without (comments : List Comment) (text : List Char) :
    Trims [] (chars (cutFrom none 0 text comments)) (without comments text) := by
  unfold without
  split
  · next hnone =>
    obtain rfl : comments = [] := by simpa using hnone
    refine ⟨(linesOf [] text).map (⟨false, ·⟩), ?_, ?_⟩
    · rw [cutFrom, chars_map, List.map_map]
      exact List.map_id _
    · rw [List.flatMap_map]
      exact List.flatMap_id'.trans (linesOf_flatten [] text)
  · exact ⟨_, linesFrom_texts false [] [] _, rfl⟩

theorem Trims.finish {sofar out : List Char} (h : Trims sofar [] out) :
    ∃ touched, out = Line.render ⟨touched, sofar.reverse⟩ := by
  obtain ⟨lines, hlines, rfl⟩ := h
  cases sofar with
  | nil =>
    obtain rfl : lines = [] := by simpa [linesOf] using hlines
    exact ⟨false, rfl⟩
  | cons c sofar =>
    obtain ⟨line, rfl, hline⟩ : ∃ line, lines = [line] ∧ line.text = (c :: sofar).reverse := by
      simpa [linesOf, List.map_eq_singleton_iff] using hlines
    exact ⟨line.touched, by rw [← hline, List.flatMap_singleton]⟩

theorem Trims.feed {sofar text out : List Char} (h : Trims sofar ('\n' :: text) out) :
    ∃ touched left, out = Line.render ⟨touched, sofar.reverse ++ ['\n']⟩ ++ left
      ∧ Trims [] text left := by
  obtain ⟨lines, hlines, rfl⟩ := h
  rw [linesOf, if_pos (beq_self_eq_true _)] at hlines
  obtain ⟨line, more, rfl, hline, hmore⟩ := List.map_eq_cons_iff.mp hlines
  rw [List.reverse_cons] at hline
  exact ⟨line.touched, _, by rw [List.flatMap_cons, ← hline], more, hmore, rfl⟩

theorem Trims.char {c : Char} {sofar text out : List Char} (hc : c ≠ '\n')
    (h : Trims sofar (c :: text) out) : Trims (c :: sofar) text out := by
  obtain ⟨lines, hlines, rfl⟩ := h
  rw [linesOf, if_neg (by simpa using hc)] at hlines
  exact ⟨lines, hlines, rfl⟩

/-! ## One line -/

theorem splitEnding_eq (text : List Char) :
    ∃ content ending, splitEnding text = (content, ending) ∧ text = content ++ ending
      ∧ (ending = ['\r', '\n'] ∨ ending = ['\n'] ∧ content.getLast? ≠ some '\r'
        ∨ ending = [] ∧ text.getLast? ≠ some '\n') := by
  unfold splitEnding
  split
  · next content h =>
    refine ⟨_, _, rfl, ?_, .inl rfl⟩
    rw [← List.reverse_reverse text, h]
    simp
  · next content hno h =>
    refine ⟨_, _, rfl, ?_, .inr (.inl ⟨rfl, fun hlast => ?_⟩)⟩
    · rw [← List.reverse_reverse text, h]
      simp
    · obtain ⟨before, hbefore⟩ := List.getLast?_eq_some_iff.mp hlast
      exact hno before.reverse (by rw [← List.reverse_reverse content, hbefore]; simp)
  · next _ hno =>
    refine ⟨_, _, rfl, (List.append_nil text).symm, .inr (.inr ⟨rfl, fun hlast => ?_⟩)⟩
    obtain ⟨content, rfl⟩ := List.getLast?_eq_some_iff.mp hlast
    exact hno content.reverse (by simp)

theorem trimEnd_append {ink text : List Char}
    (hink : ∀ c ∈ ink.getLast?, Text.isWhiteSpace c = false) :
    Text.trimEnd (ink ++ text) = ink ++ Text.trimEnd text := by
  have hhead : ink.reverse.dropWhile Text.isWhiteSpace = ink.reverse := by
    cases hreverse : ink.reverse with
    | nil => rfl
    | cons c rest =>
      have hlast : ink.getLast? = some c := by rw [List.getLast?_eq_head?_reverse, hreverse]; rfl
      rw [List.dropWhile_cons_of_neg (by simp [hink c hlast])]
  rw [Text.trimEnd, Text.trimEnd, List.reverse_append, List.dropWhile_append, hhead]
  split
  · next hnil => simp [List.isEmpty_iff.mp hnil]
  · simp

theorem trimEnd_subset (text : List Char) : Text.trimEnd text ⊆ text := by
  intro c hc
  rw [Text.trimEnd, List.mem_reverse] at hc
  exact List.mem_reverse.mp ((List.dropWhile_suffix _).subset hc)

theorem render_subset (line : Line) : line.render ⊆ line.text := by
  obtain ⟨content, ending, hsplit, htext, -⟩ := splitEnding_eq line.text
  unfold Line.render
  split
  · rw [hsplit]
    dsimp only
    split
    · exact List.nil_subset _
    · intro c hc
      rw [htext]
      exact List.mem_append.mpr ((List.mem_append.mp hc).imp_left fun h => trimEnd_subset content h)
  · exact fun _ hc => hc

/-- White space at the end of a line stands behind what is not white space. -/
theorem ending_behind {ink more content ending : List Char}
    (hink : ∀ c ∈ ink.getLast?, Text.isWhiteSpace c = false)
    (hending : ∀ c ∈ ending, Text.isWhiteSpace c = true) (h : ink ++ more = content ++ ending) :
    ∃ between, content = ink ++ between ∧ more = between ++ ending := by
  rcases List.append_eq_append_iff.mp h with ⟨between, hcontent, hmore⟩ | ⟨between, rfl, rfl⟩
  · exact ⟨between, hcontent, hmore⟩
  · rcases List.eq_nil_or_concat between with rfl | ⟨init, c, rfl⟩
    · exact ⟨[], by simp, rfl⟩
    · have hc := hink c (by simp)
      rw [hending c (by simp)] at hc
      cases hc

/-- What a line keeps behind a character that is not white space. -/
theorem render_behind (touched : Bool) (ink more : List Char)
    (hink : ∃ c ∈ ink.getLast?, Text.isWhiteSpace c = false) :
    ∃ left, Line.render ⟨touched, ink ++ more⟩ = ink ++ left ∧ left ⊆ more
      ∧ (more.getLast? = some '\n' → '\n' ∈ left)
      ∧ (more = ['\n'] ∨ more = ['\r', '\n'] → left = more) := by
  obtain ⟨c, hlast, hc⟩ := hink
  have hink : ∀ b ∈ ink.getLast?, Text.isWhiteSpace b = false := fun b hb => by
    rwa [Option.some.inj (hb.symm.trans hlast)]
  cases touched with
  | false => exact ⟨more, rfl, List.Subset.refl _, fun h => List.mem_of_getLast? h, fun _ => rfl⟩
  | true =>
    obtain ⟨content, ending, hsplit, htext, hends⟩ := splitEnding_eq (ink ++ more)
    have hwhite : ∀ b ∈ ending, Text.isWhiteSpace b = true := by
      rcases hends with rfl | ⟨rfl, -⟩ | ⟨rfl, -⟩
      · exact Literal.forall_chars (by decide)
      · exact Literal.forall_chars (by decide)
      · simp
    obtain ⟨between, rfl, rfl⟩ := ending_behind hink hwhite htext
    have hne : ink ++ Text.trimEnd between ≠ [] := fun hnil => by
      rw [(List.append_eq_nil_iff.mp hnil).1] at hlast
      cases hlast
    refine ⟨Text.trimEnd between ++ ending, ?_, fun b hb => ?_, fun hfeed => ?_, fun hwhole => ?_⟩
    · rw [Line.render, if_pos rfl, hsplit]
      dsimp only
      rw [trimEnd_append hink, if_neg (by simpa using hne), List.append_assoc]
    · exact List.mem_append.mpr ((List.mem_append.mp hb).imp_left fun h => trimEnd_subset between h)
    · rcases hends with rfl | ⟨rfl, -⟩ | ⟨rfl, hno⟩
      · simp
      · simp
      · exact absurd (by rw [List.getLast?_append, hfeed]; rfl) hno
    · -- The ending is the whole of it, so nothing is left between to be trimmed.
      suffices hnil : between = [] by rw [hnil]; rfl
      rcases hends with rfl | ⟨rfl, hreturn⟩ | ⟨rfl, hno⟩
      · rcases hwhole with h | h
        · exact absurd (congrArg List.length h) (by simp)
        · simpa using h
      · rcases hwhole with h | h
        · simpa using h
        · obtain ⟨rfl, -⟩ := List.append_inj' (show between ++ ['\n'] = ['\r'] ++ ['\n'] from h) rfl
          exact absurd (by simp) hreturn
      · rw [List.append_nil] at hwhole
        rcases hwhole with rfl | rfl <;> exact absurd (by simp) hno

/-- A line that a backslash continues stays whole. -/
theorem render_continued (touched : Bool) (text : List Char) {ending : List Char}
    (hending : ending = ['\n'] ∨ ending = ['\r', '\n']) :
    Line.render ⟨touched, text ++ '\\' :: ending⟩ = text ++ '\\' :: ending := by
  obtain ⟨left, hleft, -, -, hall⟩ := render_behind touched (text ++ ['\\']) ending
    ⟨'\\', by simp, by decide⟩
  rwa [hall hending, ← List.append_cons] at hleft

/-! ## Tokens and blanks -/

/-- The text of a token, for a trimming: it does not end with a blank, and a line feed in it stands
behind a backslash. -/
inductive Sturdy : List Char → Prop
  | last {c} : Lexer.isSpace c = false → Sturdy [c]
  | plain {c text} : c ≠ '\n' → Sturdy text → Sturdy (c :: text)
  | feed {text} : Sturdy text → Sturdy ('\\' :: '\n' :: text)
  | returnFeed {text} : Sturdy text → Sturdy ('\\' :: '\r' :: '\n' :: text)

/-- What is left of a gap between two tokens: blanks, the same ones if no line is fed. -/
structure Thins (gap left : List Char) : Prop where
  blank : ∀ c ∈ left, Lexer.isSpace c = true
  feeds : '\n' ∈ gap → '\n' ∈ left
  keeps : '\n' ∉ gap → left = gap

/-- A text may be left of another one behind a character that is not white space. -/
def TrimsBehind (text left : List Char) : Prop :=
  ∃ ink, (∃ c ∈ ink.getLast?, Text.isWhiteSpace c = false) ∧ Trims ink.reverse text (ink ++ left)

variable {sofar gap slice text out left : List Char}

theorem not_white {c : Char} (h : Lexer.isSpace c = false) : Text.isWhiteSpace c = false := by
  simp only [Lexer.isSpace, Text.isBlank, Bool.or_eq_false_iff, Bool.and_eq_false_iff] at h
  obtain ⟨⟨-, h | h⟩, hbreak⟩ := h
  · exact h
  · simp [hbreak] at h

theorem Trims.subset (h : Trims sofar text out) : out ⊆ sofar ++ text := by
  obtain ⟨lines, hlines, rfl⟩ := h
  intro c hc
  obtain ⟨line, hline, hc⟩ := List.mem_flatMap.mp hc
  have hmem : c ∈ (linesOf sofar text).flatten :=
    List.mem_flatten.mpr ⟨line.text, hlines ▸ List.mem_map_of_mem hline, render_subset line hc⟩
  simpa [linesOf_flatten] using hmem

theorem Trims.chars (hgap : '\n' ∉ gap) (h : Trims sofar (gap ++ text) out) :
    Trims (gap.reverse ++ sofar) text out := by
  induction gap generalizing sofar with
  | nil => exact h
  | cons c gap ih =>
    obtain ⟨hc, hgap⟩ := List.ne_and_not_mem_of_not_mem_cons hgap
    rw [List.reverse_cons, List.append_assoc]
    exact ih hgap (h.char (Ne.symm hc))

/-- A line goes on to begin with what it began with, up to a character that is not white space. -/
theorem Trims.behind {ink more : List Char} (hink : ∃ c ∈ ink.getLast?, Text.isWhiteSpace c = false)
    (h : Trims (ink ++ more).reverse text out) : ∃ left, out = ink ++ left ∧ left ⊆ more ++ text := by
  induction text generalizing more with
  | nil =>
    obtain ⟨touched, rfl⟩ := h.finish
    obtain ⟨left, hleft, hsub, -⟩ := render_behind touched ink more hink
    rw [List.reverse_reverse]
    exact ⟨left, hleft, fun c hc => by simpa using hsub hc⟩
  | cons c text ih =>
    by_cases hc : c = '\n'
    · subst hc
      obtain ⟨touched, rest, rfl, hrest⟩ := h.feed
      obtain ⟨left, hleft, hsub, -⟩ := render_behind touched ink (more ++ ['\n']) hink
      rw [List.reverse_reverse, List.append_assoc, hleft]
      refine ⟨left ++ rest, List.append_assoc .., fun c hc => ?_⟩
      have hall : c ∈ more ++ ['\n'] ∨ c ∈ [] ++ text :=
        (List.mem_append.mp hc).imp (fun hc => hsub hc) fun hc => hrest.subset hc
      simpa [or_assoc] using hall
    · have hmore : Trims (ink ++ (more ++ [c])).reverse text out := by
        simpa using h.char hc
      obtain ⟨left, hout, hsub⟩ := ih hmore
      exact ⟨left, hout, fun c hc => by simpa using hsub hc⟩

/-- A token stays, with all that its line has in front of it. -/
theorem Trims.sturdy (hslice : Sturdy slice) (h : Trims sofar (slice ++ text) out) :
    ∃ left, out = sofar.reverse ++ (slice ++ left) ∧ TrimsBehind text left := by
  induction hslice generalizing sofar out with
  | @last c hc =>
    have hfeed : c ≠ '\n' := by
      rintro rfl
      revert hc
      decide
    have hink : ∃ b ∈ (sofar.reverse ++ [c]).getLast?, Text.isWhiteSpace b = false :=
      ⟨c, by simp, not_white hc⟩
    have hline : Trims (sofar.reverse ++ [c] ++ []).reverse text out := by simpa using h.char hfeed
    obtain ⟨left, rfl, -⟩ := hline.behind hink
    exact ⟨left, List.append_assoc .., _, hink, by rwa [List.append_nil] at hline⟩
  | plain hc _ ih =>
    obtain ⟨left, hout, hbehind⟩ := ih (h.char hc)
    exact ⟨left, by simpa using hout, hbehind⟩
  | feed _ ih =>
    obtain ⟨touched, rest, rfl, hrest⟩ := (h.char (by decide)).feed
    obtain ⟨left, rfl, hbehind⟩ := ih hrest
    exact ⟨left, by simp [render_continued touched sofar.reverse (.inl rfl)], hbehind⟩
  | returnFeed _ ih =>
    obtain ⟨touched, rest, rfl, hrest⟩ := ((h.char (by decide)).char (by decide)).feed
    obtain ⟨left, rfl, hbehind⟩ := ih hrest
    exact ⟨left, by simp [render_continued touched sofar.reverse (.inr rfl)], hbehind⟩

/-- Blanks in front of a token, from the beginning of a line on. -/
theorem Trims.blanks (hslice : Sturdy slice) (hsofar : ∀ c ∈ sofar, Lexer.isSpace c = true)
    (hgap : ∀ c ∈ gap, Lexer.isSpace c = true) (h : Trims sofar (gap ++ (slice ++ text)) out) :
    ∃ blank left, out = blank ++ (slice ++ left) ∧ (∀ c ∈ blank, Lexer.isSpace c = true)
      ∧ TrimsBehind text left := by
  induction gap generalizing sofar out with
  | nil =>
    obtain ⟨left, rfl, hbehind⟩ := h.sturdy hslice
    exact ⟨sofar.reverse, left, rfl, by simpa using hsofar, hbehind⟩
  | cons c gap ih =>
    obtain ⟨hc, hblank⟩ := List.forall_mem_cons.mp hgap
    by_cases hfeed : c = '\n'
    · subst hfeed
      obtain ⟨touched, rest, rfl, hrest⟩ := h.feed
      obtain ⟨blank, left, rfl, hall, hbehind⟩ := ih (by simp) hblank hrest
      refine ⟨_ ++ blank, left, (List.append_assoc ..).symm, fun c hin => ?_, hbehind⟩
      rcases List.mem_append.mp hin with hin | hin
      · have hline := render_subset _ hin
        simp only [List.mem_append, List.mem_reverse, List.mem_singleton] at hline
        exact hline.elim (hsofar c) fun h => h ▸ hc
      · exact hall c hin
    · exact ih (List.forall_mem_cons.mpr ⟨hc, hsofar⟩) hblank (h.char hfeed)

/-- Blanks between two tokens. -/
theorem TrimsBehind.blanks (hslice : Sturdy slice) (hgap : ∀ c ∈ gap, Lexer.isSpace c = true)
    (h : TrimsBehind (gap ++ (slice ++ text)) out) :
    ∃ thin left, out = thin ++ (slice ++ left) ∧ Thins gap thin ∧ TrimsBehind text left := by
  obtain ⟨ink, hink, h⟩ := h
  by_cases hfeed : '\n' ∈ gap
  · obtain ⟨before, after, rfl, hbefore⟩ := List.eq_append_cons_of_mem hfeed
    rw [List.append_assoc] at h
    obtain ⟨touched, rest, hout, hrest⟩ := (h.chars hbefore).feed
    rw [List.reverse_append, List.reverse_reverse, List.reverse_reverse, List.append_assoc] at hout
    obtain ⟨kept, hkept, hsub, hlast, -⟩ := render_behind touched ink (before ++ ['\n']) hink
    rw [hkept, List.append_assoc, List.append_cancel_left_eq] at hout
    have hall : ∀ c ∈ before ++ ['\n'], Lexer.isSpace c = true := fun c hc =>
      hgap c (by rw [List.append_cons]; exact List.mem_append_left _ hc)
    obtain ⟨blank, left, rfl, hblank, hbehind⟩ := hrest.blanks hslice (by simp)
      fun c hc => hgap c (by simp [hc])
    refine ⟨kept ++ blank, left, by rw [hout, List.append_assoc], ⟨fun c hc => ?_, fun _ => ?_,
      fun hno => absurd hfeed hno⟩, hbehind⟩
    · exact (List.mem_append.mp hc).elim (fun hc => hall c (hsub hc)) (hblank c)
    · exact List.mem_append_left _ (hlast (by simp))
  · obtain ⟨left, hout, hbehind⟩ := (h.chars hfeed).sturdy hslice
    rw [List.reverse_append, List.reverse_reverse, List.reverse_reverse, List.append_assoc,
      List.append_cancel_left_eq] at hout
    exact ⟨gap, left, hout, ⟨hgap, id, fun _ => rfl⟩, hbehind⟩

theorem TrimsBehind.subset (h : TrimsBehind text left) : left ⊆ text := by
  obtain ⟨ink, hink, h⟩ := h
  have hline : Trims (ink ++ []).reverse text (ink ++ left) := by rwa [List.append_nil]
  obtain ⟨rest, hrest, hsub⟩ := hline.behind hink
  rw [List.append_cancel_left_eq] at hrest
  exact hrest ▸ hsub

end CommentRemoval
end ScriptPress
