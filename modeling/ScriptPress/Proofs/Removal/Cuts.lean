import ScriptPress.Proofs.Removal.Lines
import ScriptPress.Proofs.Removal.Scan

/-! # What stands in the place of comments

Comments are cut out by their byte offsets. Seen from the pieces and tokens of the text, each comment
gives way to its filler and nothing else changes; a gap is left that is made of blanks, empty just
where there was none, and ends a line just where one was ended.
-/
namespace ScriptPress
namespace CommentRemoval

/-! ## Cutting by offsets -/

theorem splitAtByte_zero (text : List Char) : splitAtByte 0 text = ([], text) := by
  cases text with
  | nil => rfl
  | cons c text => rw [splitAtByte, if_pos c.utf8Size_pos]

theorem splitAtByte_append (count : Nat) (text rest : List Char) :
    splitAtByte (Text.byteLength text + count) (text ++ rest)
      = (text ++ (splitAtByte count rest).1, (splitAtByte count rest).2) := by
  induction text with
  | nil => simp [Text.byteLength]
  | cons c text ih =>
    have hlength : Text.byteLength (c :: text) = c.utf8Size + Text.byteLength text := rfl
    have hcount : c.utf8Size + Text.byteLength text + count - c.utf8Size
        = Text.byteLength text + count := by omega
    rw [List.cons_append, splitAtByte, hlength, if_neg (by omega), hcount, ih]
    rfl

variable {d : Dialect} {seen : SlashReader.Context} {fresh : Bool} {offset : Nat}
  {text rest : List Char} {lead pieces : List Gap.Piece} {cells : List Cell}
  {comments : List Comment}

theorem cutFrom_kept (before : Option Char) (text rest : List Char)
    (h : ∀ c ∈ comments, offset + Text.byteLength text ≤ c.start) :
    cutFrom before offset (text ++ rest) comments = text.map .char
      ++ cutFrom (text.getLast?.or before) (offset + Text.byteLength text) rest comments := by
  cases comments with
  | nil => simp [cutFrom]
  | cons comment more =>
    have hle := h comment (by simp)
    have hcount : comment.start - offset
        = Text.byteLength text + (comment.start - (offset + Text.byteLength text)) := by omega
    rw [cutFrom, cutFrom, hcount, splitAtByte_append]
    simp only [List.getLast?_append, Option.or_assoc, List.map_append, List.append_assoc]

theorem cutFrom_comment (before : Option Char) (comment : Comment) (text rest : List Char)
    (more : List Comment) (hstart : comment.start = offset)
    (hstop : comment.stop = offset + Text.byteLength text) :
    cutFrom before offset (text ++ rest) (comment :: more)
      = .cut :: (filler comment before rest.head?).map .char
        ++ cutFrom ((filler comment before rest.head?).getLast?.or before) comment.stop rest more := by
  have hlength : comment.stop - comment.start = Text.byteLength text + 0 := by omega
  rw [cutFrom, hstart, Nat.sub_self, splitAtByte_zero, ← hstart, hlength]
  dsimp only
  rw [splitAtByte_append, splitAtByte_zero]
  rfl

/-! ## Fillers -/

/-- What stands in the place of pieces, behind a character and before a text. -/
def filled (before : Option Char) : List Gap.Piece → List Char → List Char
  | [], _ => []
  | .blanks text :: pieces, after => text ++ filled (text.getLast?.or before) pieces after
  | .comment block text :: pieces, after =>
    let comment : Comment := { (default : Comment) with
      block, hasNewline := text.any Text.isLineBreak }
    let put := filler comment before (pieceText pieces ++ after).head?
    put ++ filled (put.getLast?.or before) pieces after

theorem commentsFrom_start (line : Nat) :
    ∀ c ∈ Gap.commentsFrom offset line pieces, offset ≤ c.start := by
  induction pieces generalizing offset line with
  | nil => simp [Gap.commentsFrom]
  | cons piece pieces ih =>
    cases piece with
    | blanks text => exact fun c hc => Nat.le_of_add_right_le (ih _ c hc)
    | comment block text =>
      intro c hc
      rcases List.mem_cons.mp hc with rfl | hc
      · exact Nat.le_refl _
      · exact Nat.le_of_add_right_le (ih _ c hc)

theorem cutFrom_pieces (before : Option Char) (line : Nat)
    (h : ∀ c ∈ comments, offset + Text.byteLength (pieceText pieces) ≤ c.start) :
    chars (cutFrom before offset (pieceText pieces ++ rest)
        (Gap.commentsFrom offset line pieces ++ comments))
      = filled before pieces rest ++ chars (cutFrom ((filled before pieces rest).getLast?.or before)
          (offset + Text.byteLength (pieceText pieces)) rest comments) := by
  induction pieces generalizing before offset line with
  | nil => rfl
  | cons piece pieces ih =>
    have htext : pieceText (piece :: pieces) = piece.text ++ pieceText pieces := rfl
    rw [htext, Part.byteLength_append, ← Nat.add_assoc] at h
    have hlater : ∀ line, ∀ c ∈ Gap.commentsFrom (offset + Text.byteLength piece.text) line pieces
        ++ comments, offset + Text.byteLength piece.text ≤ c.start := fun line c hc =>
      (List.mem_append.mp hc).elim (commentsFrom_start line c)
        fun hc => Nat.le_of_add_right_le (h c hc)
    rw [htext, List.append_assoc, Part.byteLength_append, ← Nat.add_assoc]
    cases piece with
    | blanks text =>
      simp only [Gap.Piece.text] at h hlater ⊢
      rw [Gap.commentsFrom, cutFrom_kept before text _ (hlater _), chars_append, chars_map,
        ih _ _ h, filled]
      simp only [List.append_assoc, List.getLast?_append, Option.or_assoc]
    | comment block text =>
      simp only [Gap.Piece.text] at h ⊢
      rw [Gap.commentsFrom, List.cons_append]
      generalize hcomment : Comment.mk _ _ _ _ _ _ = comment
      have hfiller : ∀ after, filler comment before after
          = filler { (default : Comment) with block, hasNewline := text.any Text.isLineBreak }
              before after := by
        subst hcomment
        exact fun _ => rfl
      rw [cutFrom_comment before comment text _ _ (by rw [← hcomment]) (by rw [← hcomment]),
        List.cons_append, chars_cut, chars_append, chars_map, ← hcomment, ih _ _ h, filled, hcomment,
        hfiller]
      simp only [List.append_assoc, List.getLast?_append, Option.or_assoc]

/-- The text of cells when each comment has given way to its filler. -/
def remains : List Cell → List Char
  | [] => []
  | cell :: cells =>
    cell.slice ++ (filled cell.slice.getLast? cell.gap (cellText cells) ++ remains cells)

theorem Reads.comments_start (h : Reads d seen fresh offset text lead cells comments) :
    ∀ c ∈ comments, offset ≤ c.start := by
  induction h with
  | finish line _ => exact commentsFrom_start line
  | token line _ _ _ hstart hstop _ _ ih =>
    intro c hc
    rcases List.mem_append.mp hc with hc | hc
    · exact commentsFrom_start line c hc
    · have hle := ih c hc
      omega

/-- Cutting the comments of a reading leaves its tokens as they are. -/
theorem Reads.cut (h : Reads d seen fresh offset text lead cells comments)
    (before : Option Char) : chars (cutFrom before offset text comments)
      = filled before lead (cellText cells) ++ remains cells := by
  have htext := h.text_eq
  induction h generalizing before with
  | @finish _ _ offset _ pieces line _ =>
    have hall := @cutFrom_pieces offset [] pieces [] before line (by simp)
    rw [htext, remains, cellText, List.flatMap_nil]
    rwa [List.append_nil (Gap.commentsFrom _ _ _)] at hall
  | @token _ _ offset _ pieces t slice rest gap cells comments line _ hne _ hstart hstop _ hmore ih =>
    have hrest := hmore.text_eq
    have hcells : cellText (⟨t, slice, gap⟩ :: cells) = slice ++ rest := by
      rw [hrest, cellText, List.flatMap_cons, List.append_assoc, ← cellText]
    have hbegin := hmore.comments_start
    have hlast : ∀ other : Option Char, slice.getLast?.or other = slice.getLast? := fun other => by
      rw [List.getLast?_eq_some_getLast hne, Option.some_or]
    rw [htext, hcells, cutFrom_pieces before line fun c hc => by have := hbegin c hc; omega,
      cutFrom_kept _ _ _ fun c hc => by have := hbegin c hc; omega, chars_append, chars_map, hlast,
      ← hstart, ← hstop, ih _ hrest]
    rfl

/-! ## Gaps -/

/-- A piece as the lexer finds it: no blanks without a character, no blank at the head of a comment,
and no line break in a comment up to the end of its line. -/
def Plain : Gap.Piece → Prop
  | .blanks text => text ≠ [] ∧ ∀ c ∈ text, Lexer.isSpace c = true
  | .comment block text => (∃ c ∈ text.head?, Text.isWhiteSpace c = false)
    ∧ (block = false → text.any Text.isLineBreak = false)

theorem plain_of_fits {d : Dialect} {after : List Char} {piece : Gap.Piece}
    (h : Part.Fits d fresh offset after (.trivia piece)) : Plain piece := by
  cases h with
  | blanks hne hall =>
    exact ⟨hne, fun c hc => by simpa [Lexer.isSpace] using hall c hc⟩
  | block _ => exact ⟨⟨'/', rfl, by decide⟩, by simp⟩
  | line hopens hall _ =>
    refine ⟨?_, fun _ => List.any_eq_false.mpr hall⟩
    rcases hopens with ⟨more, rfl⟩ | ⟨more, rfl⟩ | ⟨-, more, rfl⟩
    · exact ⟨'/', rfl, by decide⟩
    · exact ⟨'<', rfl, by decide⟩
    · exact ⟨'-', rfl, by decide⟩

theorem plain_of_tile {after : List Char}
    (h : Part.Tile d fresh offset (pieces.map .trivia) after) : ∀ piece ∈ pieces, Plain piece := by
  induction pieces generalizing fresh offset with
  | nil => simp
  | cons piece pieces ih =>
    exact List.forall_mem_cons.mpr ⟨plain_of_fits h.1, ih h.2⟩

theorem plain_of_scan (h : Gap.scanFrom (.between fresh) text = ⟨pieces, none, rest⟩) :
    ∀ piece ∈ pieces, Plain piece := by
  have htile := (Gap.scanFrom_tiles .v13 (by rw [h])).tile 0
  rw [h] at htile
  exact plain_of_tile htile

theorem filler_blank (comment : Comment) (before after : Option Char) :
    ∀ c ∈ filler comment before after, Lexer.isSpace c = true := by
  unfold filler
  split
  · exact Literal.forall_chars (by decide)
  · split
    · split
      · simp
      · exact Literal.forall_chars (by decide)
    · simp

/-- What is left of a gap is blank. -/
theorem filled_blank (before : Option Char) (h : ∀ piece ∈ pieces, Plain piece) :
    ∀ c ∈ filled before pieces rest, Lexer.isSpace c = true := by
  induction pieces generalizing before with
  | nil => simp [filled]
  | cons piece pieces ih =>
    obtain ⟨hpiece, hmore⟩ := List.forall_mem_cons.mp h
    intro c hc
    cases piece with
    | blanks text => exact (List.mem_append.mp hc).elim (hpiece.2 c) (ih _ hmore c)
    | comment block text => exact (List.mem_append.mp hc).elim (filler_blank _ _ _ c) (ih _ hmore c)

theorem filler_breaks (comment : Comment) (before after : Option Char) :
    (filler comment before after).any Text.isLineBreak = (comment.block && comment.hasNewline) := by
  unfold filler
  split
  · next h =>
    rw [h]
    rfl
  · next h =>
    rw [Bool.eq_false_iff.mpr h]
    split
    · split <;> rfl
    · rfl

/-- What is left of a gap ends a line just where the gap did. -/
theorem filled_breaks (before : Option Char) (h : ∀ piece ∈ pieces, Plain piece) :
    (filled before pieces rest).any Text.isLineBreak = (pieceText pieces).any Text.isLineBreak := by
  induction pieces generalizing before with
  | nil => rfl
  | cons piece pieces ih =>
    obtain ⟨hpiece, hmore⟩ := List.forall_mem_cons.mp h
    have htext : pieceText (piece :: pieces) = piece.text ++ pieceText pieces := rfl
    rw [htext, List.any_append]
    cases piece with
    | blanks text => rw [filled, List.any_append, ih _ hmore, Gap.Piece.text]
    | comment block text =>
      rw [filled, List.any_append, ih _ hmore, filler_breaks, Gap.Piece.text]
      cases block with
      | true => rw [Bool.true_and]
      | false => rw [hpiece.2 rfl, Bool.false_and]

theorem filler_eq_nil {comment : Comment} {b a : Char}
    (h : filler comment (some b) (some a) = []) :
    Text.isWhiteSpace b = true ∨ Text.isWhiteSpace a = true := by
  unfold filler at h
  split at h
  · cases h
  · dsimp only at h
    split at h
    · next hwhite => simpa using hwhite
    · cases h

/-- Between two tokens something is left of a gap. -/
theorem filled_eq_nil {b c : Char} (hb : Text.isWhiteSpace b = false)
    (hc : rest.head? = some c) (hspace : Text.isWhiteSpace c = false)
    (h : ∀ piece ∈ pieces, Plain piece) : filled (some b) pieces rest = [] ↔ pieces = [] := by
  refine ⟨fun hnil => ?_, fun hnil => by rw [hnil, filled]⟩
  cases pieces with
  | nil => rfl
  | cons piece pieces =>
    obtain ⟨hpiece, hmore⟩ := List.forall_mem_cons.mp h
    cases piece with
    | blanks text => exact absurd (List.append_eq_nil_iff.mp hnil).1 hpiece.1
    | comment block text =>
      obtain ⟨hput, hleft⟩ := List.append_eq_nil_iff.mp hnil
      obtain ⟨a, ha⟩ : ∃ a, (pieceText pieces ++ rest).head? = some a := by
        rw [List.head?_append, hc]
        cases (pieceText pieces).head? <;> simp
      have hwhite : Text.isWhiteSpace a = true := by
        rw [ha] at hput
        exact (filler_eq_nil hput).resolve_left (by simp [hb])
      -- Without a filler the comment stood before a blank, which is left.
      cases pieces with
      | nil =>
        obtain rfl : c = a := Option.some.inj (hc.symm.trans ha)
        simp [hspace] at hwhite
      | cons next pieces =>
        have hnext := hmore next (by simp)
        cases next with
        | blanks text => exact absurd (List.append_eq_nil_iff.mp hleft).1 hnext.1
        | comment block text =>
          obtain ⟨m, hhead, hblank⟩ := hnext.1
          have htext : pieceText (.comment block text :: pieces) = text ++ pieceText pieces := rfl
          rw [htext, List.append_assoc, List.head?_append, Option.mem_def.mp hhead] at ha
          obtain rfl : m = a := Option.some.inj ha
          simp [hblank] at hwhite

end CommentRemoval
end ScriptPress
