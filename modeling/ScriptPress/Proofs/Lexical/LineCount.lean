import ScriptPress.Proofs.Removal.Tokens

/-! # Counting lines

The lexer counts the line breaks of what it passes, gap by gap and token by token. No gap, comment
or token ends between the two characters of a CR LF, so the counts add up to those of the source.
A run can go back to any slash it has read; the count goes back with it.
-/
namespace ScriptPress

namespace Text

/-- No CR LF is divided between two texts. -/
def Apart (text more : List Char) : Prop := text.getLast? = some '\r' → more.head? ≠ some '\n'

theorem lineBreaks_append {text more : List Char} (h : Apart text more) :
    lineBreaks (text ++ more) = lineBreaks text + lineBreaks more := by
  induction text with
  | nil => simp [lineBreaks]
  | cons c rest ih =>
    cases rest with
    | nil =>
      cases more with
      | nil => simp [lineBreaks]
      | cons d more =>
        have hpair : (c == '\r' && d == '\n') = false := by
          by_contra hpair
          simp only [Bool.not_eq_false, Bool.and_eq_true, beq_iff_eq] at hpair
          obtain ⟨rfl, rfl⟩ := hpair
          exact h rfl rfl
        simp [lineBreaks, hpair]
    | cons d rest =>
      have hrest : Apart (d :: rest) more := fun hlast => h (by rw [List.getLast?_cons_cons, hlast])
      have hsum := ih hrest
      simp only [List.cons_append, lineBreaks] at hsum ⊢
      rw [hsum, Nat.add_assoc]

theorem lineBreaks_eq_zero {text : List Char} (h : ∀ c ∈ text, isLineBreak c = false) :
    lineBreaks text = 0 := by
  induction text with
  | nil => rfl
  | cons c rest ih =>
    have hrest := ih fun b hb => h b (List.mem_cons_of_mem _ hb)
    have hc := h c (by simp)
    cases rest with
    | nil => simp [lineBreaks, hc]
    | cons d rest => simp [lineBreaks, hc, hrest]

theorem lineBreaks_append_plain {text more : List Char} (h : ∀ c ∈ more, isLineBreak c = false) :
    lineBreaks (text ++ more) = lineBreaks text := by
  have hapart : Apart text more := by
    intro _ hhead
    exact absurd (h _ (List.mem_of_mem_head? hhead)) (by decide)
  rw [lineBreaks_append hapart, lineBreaks_eq_zero h, Nat.add_zero]

section
variable {text more after : List Char}

theorem Apart.of_head (h : more.head? ≠ some '\n') : Apart text more := fun _ => h

theorem Apart.of_last (h : text.getLast? ≠ some '\r') : Apart text more := fun hlast =>
  absurd hlast h

theorem Apart.left (h : Apart text (more ++ after)) : Apart text more := by
  intro hlast
  have hhead := h hlast
  cases more with
  | nil => simp
  | cons c more => exact hhead

/-- What comes in front of a text that is not empty does not matter. -/
theorem Apart.behind {front : List Char} (hne : text ≠ []) (h : Apart text more) :
    Apart (front ++ text) more := by
  intro hlast
  rw [List.getLast?_append_of_ne_nil _ hne] at hlast
  exact h hlast

end
end Text

open Text (Apart lineBreaks byteLength lineBreaks_append)
open Part (byteLength_append)

/-! ## Gaps -/

namespace Gap

def Piece.isBlanks : Piece → Bool
  | blanks _ => true
  | comment _ _ => false

/-- The pieces of a gap divide no CR LF: no comment begins with a line feed or ends with a carriage
return, and two runs of blanks do not meet. -/
def Undivided : List Piece → Prop
  | [] => True
  | .blanks _ :: pieces => (∀ piece ∈ pieces.head?, piece.isBlanks = false) ∧ Undivided pieces
  | .comment _ text :: pieces =>
    (∃ c ∈ text.head?, c ≠ '\n') ∧ text.getLast? ≠ some '\r' ∧ Undivided pieces

/-- The characters that pieces take together. -/
def pieceTexts (pieces : List Piece) : List Char := pieces.flatMap Piece.text

theorem Undivided.apart {piece : Piece} {pieces : List Piece} (h : Undivided (piece :: pieces)) :
    Undivided pieces ∧ Apart piece.text (pieceTexts pieces) := by
  cases piece with
  | comment block text => exact ⟨h.2.2, .of_last h.2.1⟩
  | blanks text =>
    obtain ⟨hhead, hpieces⟩ := h
    refine ⟨hpieces, .of_head ?_⟩
    cases pieces with
    | nil => simp [pieceTexts]
    | cons next pieces =>
      cases next with
      | blanks text => cases hhead _ rfl
      | comment block text =>
        obtain ⟨c, hc, hne⟩ := hpieces.1
        rw [pieceTexts, List.flatMap_cons, Piece.text, List.head?_append, Option.mem_def.mp hc]
        simpa using hne

theorem undivided_consBlank (c : Char) {gap : Gap} (h : Undivided gap.pieces) :
    Undivided (consBlank c gap).pieces := by
  obtain ⟨pieces, unfinished, rest⟩ := gap
  cases pieces with
  | nil => exact ⟨by simp, trivial⟩
  | cons piece pieces =>
    cases piece with
    | blanks text => exact h
    | comment block text =>
      refine ⟨fun piece hpiece => ?_, h⟩
      obtain rfl : Piece.comment block text = piece := by simpa using hpiece
      rfl

theorem consBlank_texts (c : Char) (gap : Gap) :
    pieceTexts (consBlank c gap).pieces = c :: pieceTexts gap.pieces := by
  obtain ⟨pieces, unfinished, rest⟩ := gap
  cases pieces with
  | nil => rfl
  | cons piece pieces => cases piece <;> rfl

/-- What a scan has read of a comment that it stands in, and how such a comment begins. -/
def Place.sofar : Place → List Char
  | between _ => []
  | inLine sofar | inBlock _ sofar => sofar.reverse

def Place.Begun (place : Place) : Prop :=
  match place with
  | between _ => True
  | inLine sofar => (∃ c ∈ sofar.getLast?, c ≠ '\n') ∧ sofar.head? ≠ some '\r'
  | inBlock _ sofar => ∃ c ∈ sofar.getLast?, c ≠ '\n'

theorem getLast_cons_of {c d : Char} {sofar : List Char} (h : d ∈ sofar.getLast?) :
    d ∈ (c :: sofar).getLast? := by
  rw [List.getLast?_cons, Option.mem_def.mp h]
  rfl

/-- A gap takes its text in undivided pieces, whether its last comment ends or not. -/
theorem scanFrom_undivided (place : Place) (text : List Char) (h : place.Begun) :
    Undivided (scanFrom place text).pieces
      ∧ place.sofar ++ text = pieceTexts (scanFrom place text).pieces
        ++ ((scanFrom place text).unfinished.getD [] ++ (scanFrom place text).rest) := by
  induction place, text using scanFrom.induct with
  | case1 fresh => exact ⟨trivial, rfl⟩
  | case2 sofar => exact ⟨⟨by simpa using h.1, by simpa using h.2, trivial⟩, by simp [scanFrom,
      Place.sofar, pieceTexts, Piece.text]⟩
  | case3 fresh sofar => exact ⟨trivial, by simp [scanFrom, Place.sofar, pieceTexts]⟩
  | case4 fresh c rest hc ih =>
    obtain ⟨hundivided, htext⟩ := ih trivial
    rw [scanFrom, if_pos hc, consBlank_texts, consBlank_unfinished, consBlank_rest]
    exact ⟨undivided_consBlank c hundivided, congrArg (c :: ·) htext⟩
  | case5 fresh c rest hc hline ih =>
    have hbreak : c ≠ '\n' ∧ c ≠ '\r' := by
      constructor <;> rintro rfl <;> exact hc (by decide)
    rw [scanFrom, if_neg hc, if_pos hline]
    exact ih ⟨⟨c, rfl, hbreak.1⟩, by simpa using hbreak.2⟩
  | case6 fresh c rest hc hline hblock ih =>
    have hbreak : c ≠ '\n' := by
      rintro rfl
      exact hc (by decide)
    rw [scanFrom, if_neg hc, if_neg hline, if_pos hblock]
    exact ih ⟨c, rfl, hbreak⟩
  | case7 fresh c rest hc hline hblock =>
    rw [scanFrom, if_neg hc, if_neg hline, if_neg hblock]
    exact ⟨trivial, rfl⟩
  | case8 sofar c rest hbreak ih =>
    obtain ⟨hundivided, htext⟩ := ih trivial
    rw [scanFrom, if_pos hbreak]
    refine ⟨⟨by simpa using h.1, by simpa using h.2, undivided_consBlank c hundivided⟩, ?_⟩
    simp only [cons, pieceTexts, List.flatMap_cons, Piece.text, List.append_assoc] at htext ⊢
    rw [← pieceTexts, consBlank_texts, consBlank_unfinished, consBlank_rest]
    exact congrArg (sofar.reverse ++ c :: ·) htext
  | case9 sofar c rest hbreak ih =>
    obtain ⟨⟨d, hd, hne⟩, -⟩ := h
    have hc : c ≠ '\r' := by
      rintro rfl
      exact hbreak (by decide)
    rw [scanFrom, if_neg hbreak]
    have hbegun : (Place.inLine (c :: sofar)).Begun :=
      ⟨⟨d, getLast_cons_of hd, hne⟩, by simpa using hc⟩
    simpa [Place.sofar] using ih hbegun
  | case10 fresh sofar c rest hclose ih =>
    obtain ⟨hundivided, htext⟩ := ih trivial
    obtain ⟨d, hd, hne⟩ := h
    have hslash : c = '/' := by
      simp only [Bool.and_eq_true, beq_iff_eq] at hclose
      exact hclose.1
    rw [scanFrom, if_pos hclose]
    refine ⟨⟨⟨d, ?_, hne⟩, by simp [hslash], hundivided⟩, ?_⟩
    · rw [List.head?_reverse]
      exact getLast_cons_of hd
    simp only [cons, pieceTexts, List.flatMap_cons, Piece.text, List.append_assoc] at htext ⊢
    rw [← htext]
    simp [Place.sofar]
  | case11 fresh sofar c rest hclose ih =>
    obtain ⟨d, hd, hne⟩ := h
    rw [scanFrom, if_neg hclose]
    have hbegun : (Place.inBlock fresh (c :: sofar)).Begun := ⟨d, getLast_cons_of hd, hne⟩
    simpa [Place.sofar] using ih hbegun

end Gap

/-- A comment of a source stands where its characters do, on the line of the first of them, and
knows whether one of them breaks the line. -/
structure Comment.Stands (source : List Char) (line : Nat) (c : Comment) (before after : List Char) :
    Prop where
  whole : source = before ++ c.text.toList ++ after
  start : c.start = byteLength before
  stop : c.stop = byteLength (before ++ c.text.toList)
  line : c.line = line + lineBreaks before
  newline : c.hasNewline = c.text.toList.any Text.isLineBreak

/-- A token of a source stands behind the token before it with a gap between them: on the line of
its first character, and knowing whether a line ended in the gap. -/
structure Token.Stands (source : List Char) (line last : Nat) (t : Token)
    (before gap slice after : List Char) : Prop where
  whole : source = before ++ gap ++ slice ++ after
  last : last = byteLength before
  start : t.start = byteLength (before ++ gap)
  stop : t.stop = byteLength (before ++ gap ++ slice)
  line : t.line = line + lineBreaks (before ++ gap)
  newline : t.newlineBefore = gap.any Text.isLineBreak

namespace Gap

theorem commentsFrom_stands {position line : Nat} {pieces : List Piece} (h : Undivided pieces) :
    ∀ c ∈ commentsFrom position line pieces, ∃ before after,
      pieceTexts pieces = before ++ c.text.toList ++ after ∧ c.start = position + byteLength before
      ∧ c.stop = c.start + byteLength c.text.toList ∧ c.line = line + lineBreaks before
      ∧ c.hasNewline = c.text.toList.any Text.isLineBreak := by
  induction pieces generalizing position line with
  | nil => simp [commentsFrom]
  | cons piece pieces ih =>
    obtain ⟨hpieces, hapart⟩ := h.apart
    have hlater : ∀ c ∈ commentsFrom (position + byteLength piece.text)
        (line + lineBreaks piece.text) pieces, ∃ before after,
        pieceTexts (piece :: pieces) = before ++ c.text.toList ++ after
        ∧ c.start = position + byteLength before ∧ c.stop = c.start + byteLength c.text.toList
        ∧ c.line = line + lineBreaks before
        ∧ c.hasNewline = c.text.toList.any Text.isLineBreak := by
      intro c hc
      obtain ⟨before, after, htexts, hstart, hstop, hline, hnewline⟩ := ih hpieces c hc
      rw [htexts, List.append_assoc] at hapart
      refine ⟨piece.text ++ before, after, ?_, ?_, hstop, ?_, hnewline⟩
      · rw [pieceTexts, List.flatMap_cons, ← pieceTexts, htexts]
        simp only [List.append_assoc]
      · rw [hstart, byteLength_append, Nat.add_assoc]
      · rw [hline, lineBreaks_append hapart.left, Nat.add_assoc]
    intro c hc
    cases piece with
    | blanks text => exact hlater c hc
    | comment block text =>
      rcases List.mem_cons.mp hc with rfl | hc
      · refine ⟨[], pieceTexts pieces, ?_, rfl, ?_, rfl, ?_⟩ <;> simp [pieceTexts, Piece.text]
      · exact hlater c hc

end Gap

namespace Lexer

/-! ## Counting on -/

/-- A lexer that has passed a text of a source counts its bytes and its line breaks. -/
structure Counts (source : List Char) (line : Nat) (passed : List Char) (lx : Lexer) : Prop where
  whole : source = passed ++ lx.rest
  position : lx.position = byteLength passed
  line : lx.line = line + lineBreaks passed
  apart : Apart passed lx.rest

variable {source passed : List Char} {line : Nat} {lx lx' : Lexer} {t slash : Token}

/-- The comments of the gap before the next token stand where they should, whether the token can be
read or not. -/
theorem Counts.comments (h : Counts source line passed lx) :
    ∀ c ∈ lx.next.2.comments, c ∈ lx.comments ∨ ∃ before after, c.Stands source line before after := by
  obtain ⟨hundivided, htext⟩ := Gap.scanFrom_undivided (.between lx.fresh) lx.rest trivial
  have hnext : lx.next.2.comments = (lx.pass (Gap.scan lx.fresh lx.rest)).comments := by
    rw [next]
    dsimp only
    split
    · rfl
    · split
      · rfl
      · split <;> rfl
  intro c hc
  rw [hnext, pass] at hc
  dsimp only at hc
  split at hc
  · rcases List.mem_append.mp hc with hc | hc
    · exact .inl hc
    obtain ⟨before, after, hpieces, hstart, hstop, hline, hnewline⟩ :=
      Gap.commentsFrom_stands hundivided c hc
    obtain ⟨tail, htail⟩ : ∃ tail, lx.rest = before ++ c.text.toList ++ tail := by
      rw [hpieces, List.append_assoc _ after] at htext
      exact ⟨_, htext⟩
    have hapart : Apart passed before := by
      have hrest := h.apart
      rw [htail, List.append_assoc] at hrest
      exact hrest.left
    refine .inr ⟨passed ++ before, tail, ⟨?_, ?_, ?_, ?_, hnewline⟩⟩
    · rw [h.whole, htail]
      simp only [List.append_assoc]
    · rw [hstart, h.position, byteLength_append]
    · rw [hstop, hstart, h.position, byteLength_append, byteLength_append]
    · rw [hline, h.line, lineBreaks_append hapart, Nat.add_assoc]
  · exact .inl hc

/-- What a call of `next` that returns a token did, as far as lines are concerned. -/
theorem next_line (h : lx.next = (.ok t, lx')) :
    t.line = (lx.pass (Gap.scan lx.fresh lx.rest)).line := by
  rw [next] at h
  dsimp only at h
  split at h
  · cases h
  · split at h
    · obtain ⟨rfl, -⟩ := Prod.mk.inj h |>.imp_left Except.ok.inj
      rfl
    · split at h
      · cases h
      · obtain ⟨rfl, -⟩ := Prod.mk.inj h |>.imp_left Except.ok.inj
        rfl

/-- The gap before the next token is passed and counted. -/
theorem Counts.pass (h : Counts source line passed lx)
    (hu : (Gap.scan lx.fresh lx.rest).unfinished = none) :
    ∃ gap, gap = Gap.pieceTexts (Gap.scan lx.fresh lx.rest).pieces
      ∧ Counts source line (passed ++ gap) (lx.pass (Gap.scan lx.fresh lx.rest))
      ∧ (Gap.scan lx.fresh lx.rest).rest.head? ≠ some '\n' := by
  obtain ⟨-, htext⟩ := Gap.scanFrom_undivided (.between lx.fresh) lx.rest trivial
  have htext : lx.rest = Gap.pieceTexts (Gap.scan lx.fresh lx.rest).pieces
      ++ (Gap.scan lx.fresh lx.rest).rest := by
    rw [← Gap.scan, hu] at htext
    exact htext
  have hstops := @Gap.stops_rest lx.fresh lx.rest (Gap.scan lx.fresh lx.rest).rest
    (Gap.scan lx.fresh lx.rest).pieces (by rw [← hu]; rfl)
  have hhead : (Gap.scan lx.fresh lx.rest).rest.head? ≠ some '\n' := fun hfeed =>
    absurd (hstops.space _ hfeed) (by decide)
  have hapart := h.apart
  rw [htext] at hapart
  refine ⟨_, rfl, ⟨?_, ?_, ?_, .of_head hhead⟩, hhead⟩
  · rw [h.whole, List.append_assoc]
    exact congrArg (passed ++ ·) htext
  · rw [byteLength_append, ← h.position]
    rfl
  · rw [lineBreaks_append hapart.left, ← Nat.add_assoc, ← h.line]
    rfl

/-- The next token is counted with the gap before it. -/
theorem Counts.next (h : Counts source line passed lx) (hnext : lx.next = (.ok t, lx')) :
    ∃ gap slice, t.Stands source line lx.position passed gap slice lx'.rest
      ∧ Counts source line (passed ++ gap ++ slice) lx'
      ∧ (t.isSlash = true → slice ++ lx'.rest = '/' :: t.reopen lx'.rest) := by
  obtain ⟨scanned, hscanned, hu, hstart, hcase⟩ := next_inv hnext
  obtain ⟨gap, hgap, hpass, hhead⟩ := h.pass (by rw [Gap.scan, hscanned]; exact hu)
  have hline := next_line hnext
  have hbreaks := CommentRemoval.next_breaks hnext
  have hnewline : t.newlineBefore = gap.any Text.isLineBreak := by
    rw [hbreaks, hgap, Gap.breaks, Gap.pieceTexts, List.any_flatMap]
    rfl
  rw [Gap.scan, hscanned] at hpass hline hhead
  obtain ⟨hrest, heoi, hstop, rfl⟩ | ⟨c, l, hc, hl, hof, hstop, rfl⟩ := hcase
  · refine ⟨gap, [], ⟨?_, h.position, ?_, ?_, ?_, hnewline⟩, ?_, fun hslash => ?_⟩
    · rw [List.append_nil]
      exact hpass.whole
    · rw [hstart, hpass.position]
    · rw [hstop, hstart, hpass.position, List.append_nil]
    · rw [hline, hpass.line]
    · rw [List.append_nil]
      exact hpass
    · simp [Token.isSlash, heoi] at hslash
  · rw [hof] at hl
    obtain ⟨hsplit, hne, -⟩ := lexeme_ok hc hl
    have hspells := spells_of_lexeme hc hl
    obtain ⟨last, hlast, hspace⟩ := (CommentRemoval.lexeme_sturdy hc hl).ends
    have hreturn : l.taken.getLast? ≠ some '\r' := by
      intro hr
      obtain rfl : last = '\r' := Option.some.inj ((Option.mem_def.mp hlast).symm.trans hr)
      exact absurd hspace (by decide)
    have hslice : Apart (passed ++ gap) l.taken := by
      have hwhole := hpass.apart
      rw [show (lx.pass scanned).rest = _ from hsplit] at hwhole
      exact hwhole.left
    refine ⟨gap, l.taken, ⟨?_, h.position, ?_, ?_, ?_, hnewline⟩, ⟨?_, ?_, ?_, ?_⟩,
      fun hslash => slash_slice hspells hslash⟩
    · rw [List.append_assoc _ l.taken]
      exact hpass.whole.trans (congrArg (passed ++ gap ++ ·) hsplit)
    · rw [hstart, hpass.position]
    · rw [hstop, hstart, hpass.position, byteLength_append _ l.taken]
    · rw [hline, hpass.line]
    · rw [List.append_assoc _ l.taken]
      exact hpass.whole.trans (congrArg (passed ++ gap ++ ·) hsplit)
    · rw [byteLength_append _ l.taken, ← hpass.position]
      rfl
    · rw [lineBreaks_append hslice, ← Nat.add_assoc, ← hpass.line]
      rfl
    · exact Text.Apart.behind hne (.of_last hreturn)

/-! ## Going back to a slash -/

/-- A lexer put back to a place it has been at. The comments stay collected. -/
def backTo (lx place : Lexer) : Lexer :=
  { lx with rest := place.rest, position := place.position, line := place.line }

theorem rescan_pattern_eq (h : lx.rescan slash = (.ok t, lx')) :
    ∃ body, Literal.regExp (slash.reopen lx.rest) = .token body lx'.rest
      ∧ t = { slash with
          tag := .regExp, datum := none, text := some (String.ofList ('/' :: body)),
          stop := slash.start + 1 + byteLength body }
      ∧ lx'.position = slash.start + 1 + byteLength body
      ∧ lx'.line = lx.line + lineBreaks body ∧ lx'.comments = lx.comments := by
  have hreopen : (if slash.tag == .assign then '=' :: lx.rest else lx.rest)
      = slash.reopen lx.rest := rfl
  by_cases hd : lx.dialect.hasRegExpLiterals = true
  · cases hscan : Literal.regExp (slash.reopen lx.rest) with
    | problem p taken =>
      simp only [Lexer.rescan, hd, hreopen, hscan] at h
      cases h
    | token body rest =>
      simp only [Lexer.rescan, hd, hreopen, hscan, Bool.not_true, Bool.false_eq_true, if_false,
        Prod.mk.injEq, Except.ok.injEq] at h
      obtain ⟨rfl, rfl⟩ := h
      exact ⟨body, rfl, rfl, rfl, rfl, rfl⟩
  · simp [Lexer.rescan, hd] at h

/-- The characters of a slash break no line. -/
theorem slash_plain {slice rest : List Char} (h : slice ++ rest = '/' :: slash.reopen rest) :
    ∀ c ∈ slice, Text.isLineBreak c = false := by
  rw [Token.reopen] at h
  split at h
  · obtain rfl : slice = ['/', '='] := List.append_cancel_right h
    simp [Text.isLineBreak]
  · obtain rfl : slice = ['/'] := List.append_cancel_right h
    simp [Text.isLineBreak]

/-- A slash that is read again as a regular expression is counted as it was, on its line and with
its gap; no line ends within the regular expression. -/
theorem Counts.rescan {last : Nat} {before gap slice : List Char} {place : Lexer}
    (hstands : slash.Stands source line last before gap slice place.rest)
    (hslash : slice ++ place.rest = '/' :: slash.reopen place.rest)
    (hcounts : Counts source line (before ++ gap ++ slice) place)
    (hr : (lx.backTo place).rescan slash = (.ok t, lx')) :
    ∃ slice, t.Stands source line last before gap slice lx'.rest
      ∧ Counts source line (before ++ gap ++ slice) lx' ∧ lx'.comments = lx.comments := by
  obtain ⟨body, hregExp, rfl, hposition, hline, hcomments⟩ := rescan_pattern_eq hr
  obtain ⟨hsplit, -, hlast, -⟩ := Literal.regExp_token hregExp
  have hbody := CommentRemoval.regExp_no_break hregExp
  have hwhole : source = before ++ gap ++ '/' :: body ++ lx'.rest := by
    have hsplit : slash.reopen place.rest = body ++ lx'.rest := hsplit
    rw [hstands.whole, List.append_assoc (before ++ gap), hslash, hsplit]
    simp only [List.append_assoc, List.cons_append]
  have hslashSize : Char.utf8Size '/' = 1 := rfl
  have hstop : slash.start + 1 + byteLength body = byteLength (before ++ gap ++ '/' :: body) := by
    rw [byteLength_append _ ('/' :: body), hstands.start, Nat.add_assoc]
    simp [byteLength, hslashSize]
  have hpattern : ∀ c ∈ '/' :: body, Text.isLineBreak c = false :=
    List.forall_mem_cons.mpr ⟨by decide, hbody⟩
  refine ⟨'/' :: body, ⟨hwhole, hstands.last, hstands.start, hstop, hstands.line, hstands.newline⟩,
    ⟨hwhole, hposition.trans hstop, ?_, ?_⟩, hcomments⟩
  · rw [hline, Text.lineBreaks_eq_zero hbody, Nat.add_zero, Text.lineBreaks_append_plain hpattern,
      ← Text.lineBreaks_append_plain (slash_plain hslash), ← hcounts.line]
    rfl
  · have hreturn : ('/' :: body).getLast? ≠ some '\r' := fun hr =>
      absurd (hpattern _ (List.mem_of_getLast? hr)) (by decide)
    exact Text.Apart.behind (by simp) (.of_last hreturn)

/-! ## Runs -/

/-- The runs of a lexer from a start on, with the tokens they read and the lexer they leave. A call
reads the next token, the end of the text included; or it goes back to a slash that a run has read
and reads it again as a regular expression, and the tokens behind the slash are given up. -/
inductive Calls (start : Lexer) : List Token → Lexer → Prop
  | begin : Calls start [] start
  | next {tokens lx t lx'} : Calls start tokens lx → lx.next = (.ok t, lx') →
      Calls start (tokens ++ [t]) lx'
  | rescan {tokens lx earlier slash place t lx'} : Calls start tokens lx →
      Calls start (earlier ++ [slash]) place → slash.isSlash = true →
      (lx.backTo place).rescan slash = (.ok t, lx') → Calls start (earlier ++ [t]) lx'

/-- Where the last token of a run stops. -/
def lastStop (tokens : List Token) : Nat := tokens.getLast?.elim 0 Token.stop

@[simp] theorem lastStop_concat (tokens : List Token) (t : Token) :
    lastStop (tokens ++ [t]) = t.stop := by simp [lastStop]

/-- Each token stands behind the one before it. -/
def Accounts (source : List Char) (line : Nat) (tokens : List Token) : Prop :=
  ∀ earlier t later, tokens = earlier ++ t :: later →
    ∃ before gap slice after, t.Stands source line (lastStop earlier) before gap slice after

theorem accounts_concat {tokens : List Token} :
    Accounts source line (tokens ++ [t]) ↔ Accounts source line tokens
      ∧ ∃ before gap slice after, t.Stands source line (lastStop tokens) before gap slice after := by
  constructor
  · intro h
    refine ⟨fun earlier b later hsplit => h earlier b (later ++ [t]) ?_, h tokens t [] rfl⟩
    rw [hsplit, List.append_assoc, List.cons_append]
  · rintro ⟨htokens, ht⟩ earlier b later hsplit
    rcases List.eq_nil_or_concat later with rfl | ⟨more, last, rfl⟩
    · obtain ⟨rfl, hb⟩ := List.append_inj' hsplit rfl
      obtain rfl : t = b := by simpa using hb
      exact ht
    · rw [List.concat_eq_append, ← List.cons_append, ← List.append_assoc] at hsplit
      exact htokens earlier b more (List.append_inj' hsplit rfl).1

/-- What a run keeps: its tokens and comments stand where they should, and the lexer counts what it
has passed. The text behind the last token is the text that the lexer has left. -/
structure Accounted (source : List Char) (line : Nat) (tokens : List Token) (lx : Lexer) :
    Prop where
  stands : Accounts source line tokens
  comments : ∀ c ∈ lx.comments, ∃ before after, c.Stands source line before after
  counts : ∃ passed, Counts source line passed lx
  position : lx.position = lastStop tokens
  last : ∀ earlier t, tokens = earlier ++ [t] → t.isSlash = true →
    ∃ before gap slice, t.Stands source line (lastStop earlier) before gap slice lx.rest
      ∧ Counts source line (before ++ gap ++ slice) lx
      ∧ slice ++ lx.rest = '/' :: t.reopen lx.rest

/-- A call that reads the token behind `earlier` keeps the account. -/
theorem Accounted.read {earlier : List Token} {before gap slice : List Char}
    (hearlier : Accounts source line earlier)
    (hcomments : ∀ c ∈ lx'.comments, ∃ before after, c.Stands source line before after)
    (hstands : t.Stands source line (lastStop earlier) before gap slice lx'.rest)
    (hcounts : Counts source line (before ++ gap ++ slice) lx')
    (hslash : t.isSlash = true → slice ++ lx'.rest = '/' :: t.reopen lx'.rest) :
    Accounted source line (earlier ++ [t]) lx' := by
  refine ⟨accounts_concat.mpr ⟨hearlier, before, gap, slice, _, hstands⟩, hcomments, ⟨_, hcounts⟩,
    ?_, ?_⟩
  · rw [lastStop_concat, hcounts.position, hstands.stop]
  · intro earlier' slash hsplit his
    obtain ⟨rfl, hlast⟩ := List.append_inj' hsplit rfl
    obtain rfl : t = slash := by simpa using hlast
    exact ⟨before, gap, slice, hstands, hcounts, hslash his⟩

theorem Calls.accounted {text : String} {d : Dialect} {keep : Bool} {tokens : List Token}
    (h : Calls (Lexer.start text d line keep) tokens lx) :
    Accounted text.toList line tokens lx := by
  induction h with
  | begin =>
    refine ⟨fun earlier t later hsplit => ?_, by simp [Lexer.start], ⟨[], rfl, rfl, rfl, ?_⟩, rfl,
      fun earlier slash hsplit => ?_⟩
    · exact absurd hsplit (by simp)
    · exact .of_last (by simp)
    · exact absurd hsplit (by simp)
  | @next tokens lx t lx' _ hnext ih =>
    obtain ⟨passed, hpassed⟩ := ih.counts
    obtain ⟨gap, slice, hstands, hcounts, hslash⟩ := hpassed.next hnext
    rw [ih.position] at hstands
    refine .read ih.stands (fun c hc => ?_) hstands hcounts hslash
    have hmem := hpassed.comments c
    rw [hnext] at hmem
    exact (hmem hc).elim (ih.comments c) id
  | @rescan tokens lx earlier slash place t lx' _ _ hslash hr ih ihslash =>
    obtain ⟨before, gap, slice, hstands, hcounts, hopens⟩ := ihslash.last _ _ rfl hslash
    obtain ⟨slice', hstands', hcounts', hcomments⟩ := Counts.rescan hstands hopens hcounts hr
    refine .read (accounts_concat.mp ihslash.stands).1 (hcomments ▸ ih.comments) hstands' hcounts'
      fun his => ?_
    obtain ⟨body, -, rfl, -⟩ := rescan_pattern_eq hr
    simp [Token.isSlash] at his

/-- Whatever calls a run is made of, each token is on the line of its first character and knows
whether a line ended in the gap before it, and so does each comment that was collected, up to the
last call, even if that one fails. -/
theorem calls_accounted {text : String} {d : Dialect} {keep : Bool} {tokens : List Token}
    (h : Calls (Lexer.start text d line keep) tokens lx) :
    (∀ earlier t later, tokens = earlier ++ t :: later → ∃ before gap slice after,
      t.Stands text.toList line (lastStop earlier) before gap slice after)
    ∧ ∀ c, c ∈ lx.comments ∨ c ∈ lx.next.2.comments →
      ∃ before after, c.Stands text.toList line before after := by
  have hkept := h.accounted
  obtain ⟨passed, hpassed⟩ := hkept.counts
  refine ⟨hkept.stands, ?_⟩
  rintro c (hc | hc)
  · exact hkept.comments c hc
  · exact (hpassed.comments c hc).elim (hkept.comments c) id

/-- A run that goes back to a slash from behind the token after it. -/
theorem calls_accounted_back : ∃ (tokens : List Token) (lx : Lexer),
    Calls (Lexer.start "x\r\n=1/ 2/i/*\r\n*/y" .v13 7 true) tokens lx
      ∧ tokens.map (fun t => (t.line, t.newlineBefore))
        = [(7, false), (8, true), (8, false), (8, false), (9, true)]
      ∧ (∀ earlier t later, tokens = earlier ++ t :: later → ∃ before gap slice after,
        t.Stands "x\r\n=1/ 2/i/*\r\n*/y".toList 7 (lastStop earlier) before gap slice after)
      ∧ lx.comments.map (fun c => (c.line, c.hasNewline)) = [(8, true)] := by
  have hslash : Calls (Lexer.start "x\r\n=1/ 2/i/*\r\n*/y" .v13 7 true) ([_, _, _] ++ [_]) _ :=
    .next (.next (.next (.next .begin rfl) rfl) rfl) rfl
  have hcalls : Calls (Lexer.start "x\r\n=1/ 2/i/*\r\n*/y" .v13 7 true) _ _ :=
    .next (.rescan (.next hslash rfl) hslash rfl rfl) rfl
  exact ⟨_, _, hcalls, rfl, (calls_accounted hcalls).1, rfl⟩

end Lexer
end ScriptPress
