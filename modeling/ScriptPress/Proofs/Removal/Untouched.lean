import ScriptPress.Proofs.Removal.Cuts

/-! # Lines without comments

A line of a text that no comment reaches into is left as it is, with its line ending, by the
removal of comments, and such lines stay in their order. One of them can be trimmed or lost: the
line before a last one that is made of comments alone, since a cut with no character behind it
counts for the line before.
-/
namespace ScriptPress
namespace CommentRemoval

/-! ## The lines of a text and its comments -/

/-- The characters of a text from a byte offset on, each with whether it stands in a comment. -/
def marksFrom (comments : List Comment) (offset : Nat) : List Char → List (Char × Bool)
  | [] => []
  | c :: text =>
    (c, comments.any fun k => decide (k.start ≤ offset ∧ offset < k.stop))
      :: marksFrom comments (offset + c.utf8Size) text

/-- The lines of marked characters, each up to its line feed. The characters of the first one so
far are kept with the last one first. -/
def rowsFrom (sofar : List (Char × Bool)) : List (Char × Bool) → List (List (Char × Bool))
  | [] => if sofar.isEmpty then [] else [sofar.reverse]
  | m :: rest =>
    if m.1 == '\n' then (m :: sofar).reverse :: rowsFrom [] rest else rowsFrom (m :: sofar) rest

/-- The lines of a text, with what a scan finds to stand in comments. -/
def rows (text : String) (d : Dialect) : List (List (Char × Bool)) :=
  rowsFrom [] (marksFrom (scan text d).comments 0 text.toList)

/-- A line that has no character of a comment. -/
def isClear (row : List (Char × Bool)) : Bool := row.all (!·.2)

/-- The texts of the lines that have no character of a comment. -/
def clearLines (rows : List (List (Char × Bool))) : List (List Char) :=
  (rows.filter isClear).map (·.map Prod.fst)

/-- The last line is made of comments alone, and the one before it is not the same when it is
trimmed. -/
def TrimsBeforeEnd (rows : List (List (Char × Bool))) : Prop :=
  (∃ row ∈ rows.getLast?, ∀ m ∈ row, m.2 = true)
    ∧ ∃ row ∈ rows.dropLast.getLast?,
      Line.render ⟨true, row.map Prod.fst⟩ ≠ row.map Prod.fst

variable {comments : List Comment} {offset : Nat} {text : List Char}
  {sofar marks : List (Char × Bool)} {row : List (Char × Bool)}
  {rest : List (List (Char × Bool))}

theorem marksFrom_chars : (marksFrom comments offset text).map Prod.fst = text := by
  induction text generalizing offset with
  | nil => rfl
  | cons c text ih => exact congrArg (c :: ·) ih

theorem rowsFrom_lines :
    (rowsFrom sofar marks).map (·.map Prod.fst)
      = linesOf (sofar.map Prod.fst) (marks.map Prod.fst) := by
  induction marks generalizing sofar with
  | nil => cases sofar <;> simp [rowsFrom, linesOf]
  | cons m marks ih =>
    rw [rowsFrom, List.map_cons, linesOf]
    split
    · simp [ih]
    · exact ih

theorem rows_lines (text : String) (d : Dialect) :
    (rows text d).map (·.map Prod.fst) = linesOf [] text.toList := by
  rw [rows, rowsFrom_lines, marksFrom_chars]
  rfl

/-- Characters in front of all comments are marked as what they are. -/
theorem marksFrom_cons {c : Char} (h : ∀ k ∈ comments, offset + c.utf8Size ≤ k.start) :
    marksFrom comments offset (c :: text)
      = (c, false) :: marksFrom comments (offset + c.utf8Size) text := by
  have hpos := c.utf8Size_pos
  have hnone : (comments.any fun k => decide (k.start ≤ offset ∧ offset < k.stop)) = false := by
    refine List.any_eq_false.mpr fun k hk => ?_
    have hle := h k hk
    simp only [decide_eq_true_eq, not_and, Nat.not_lt]
    omega
  rw [marksFrom, hnone]

/-- A comment that ends in front of a text marks nothing in it. -/
theorem marksFrom_behind {comment : Comment} (h : comment.stop ≤ offset) :
    marksFrom (comment :: comments) offset text = marksFrom comments offset text := by
  induction text generalizing offset with
  | nil => rfl
  | cons c text ih =>
    have hno : ¬ (comment.start ≤ offset ∧ offset < comment.stop) := by omega
    rw [marksFrom, marksFrom, ih (by omega), List.any_cons, decide_eq_false hno, Bool.false_or]

/-- The characters of a comment are marked. -/
theorem marksFrom_comment {comment : Comment} {body : List Char} (hstart : comment.start ≤ offset)
    (hstop : comment.stop = offset + Text.byteLength body) :
    marksFrom (comment :: comments) offset (body ++ text)
      = body.map (·, true) ++ marksFrom comments comment.stop text := by
  induction body generalizing offset with
  | nil =>
    have hstop : comment.stop = offset := hstop
    rw [hstop]
    exact marksFrom_behind (Nat.le_of_eq hstop)
  | cons c body ih =>
    have hlength : Text.byteLength (c :: body) = c.utf8Size + Text.byteLength body := rfl
    have hpos := c.utf8Size_pos
    have hin : comment.start ≤ offset ∧ offset < comment.stop := by omega
    rw [List.cons_append, marksFrom, ih (by omega) (by omega), List.any_cons, decide_eq_true hin]
    rfl

/-! ## Texts and the comments in them -/

/-- Comments stand in a text from a byte offset on, with their characters. The last one of them is
no line feed, and only a block comment that knows of it holds one. -/
inductive Spread : (offset : Nat) → List Char → List Comment → Prop
  | nil {place : Nat} : Spread place [] []
  | kept {place : Nat} {c : Char} {after : List Char} {more : List Comment} :
      (∀ k ∈ more, place + c.utf8Size ≤ k.start) →
      Spread (place + c.utf8Size) after more → Spread place (c :: after) more
  | comment {place : Nat} {comment : Comment} {body after : List Char} {more : List Comment} :
      comment.start = place → comment.stop = place + Text.byteLength body → body ≠ [] →
      body.getLast? ≠ some '\n' →
      ('\n' ∈ body → comment.block = true ∧ comment.hasNewline = true) →
      Spread comment.stop after more → Spread place (body ++ after) (comment :: more)

theorem Spread.chars {rest : List Char}
    (hrest : Spread (offset + Text.byteLength text) rest comments)
    (h : ∀ k ∈ comments, offset + Text.byteLength text ≤ k.start) :
    Spread offset (text ++ rest) comments := by
  induction text generalizing offset with
  | nil => exact hrest
  | cons c text ih =>
    have hlength : offset + Text.byteLength (c :: text)
        = offset + c.utf8Size + Text.byteLength text := (Nat.add_assoc _ _ _).symm
    rw [hlength] at hrest h
    exact .kept (fun k hk => Nat.le_of_add_right_le (h k hk)) (ih hrest h)

/-- A piece of a gap whose last character is no line feed, if it is a comment, and which holds one
only if it is a block. -/
def Closed : Gap.Piece → Prop
  | .blanks _ => True
  | .comment block text => text ≠ [] ∧ text.getLast? ≠ some '\n' ∧ ('\n' ∈ text → block = true)

theorem closed_of_fits {d : Dialect} {fresh : Bool} {after : List Char} {piece : Gap.Piece}
    (h : Part.Fits d fresh offset after (.trivia piece)) : Closed piece := by
  cases h with
  | blanks => trivial
  | block _ => exact ⟨by simp, by simp [List.getLast?_cons], fun _ => rfl⟩
  | @line text hopens hall _ =>
    have hfeed : '\n' ∉ text := fun hmem => absurd rfl (hall _ hmem)
    refine ⟨?_, fun hlast => hfeed (List.mem_of_getLast? hlast), fun hmem => absurd hmem hfeed⟩
    rcases hopens with ⟨more, rfl⟩ | ⟨more, rfl⟩ | ⟨-, more, rfl⟩ <;> simp

theorem closed_of_tile {d : Dialect} {fresh : Bool} {after : List Char} {pieces : List Gap.Piece}
    (h : Part.Tile d fresh offset (pieces.map .trivia) after) : ∀ piece ∈ pieces, Closed piece := by
  induction pieces generalizing fresh offset with
  | nil => simp
  | cons piece pieces ih =>
    exact List.forall_mem_cons.mpr ⟨closed_of_fits h.1, ih h.2⟩

theorem closed_of_scan {fresh : Bool} {pieces : List Gap.Piece} {rest : List Char}
    (h : Gap.scanFrom (.between fresh) text = ⟨pieces, none, rest⟩) :
    ∀ piece ∈ pieces, Closed piece := by
  have htile := (Gap.scanFrom_tiles .v13 (by rw [h])).tile 0
  rw [h] at htile
  exact closed_of_tile htile

theorem Spread.pieces {pieces : List Gap.Piece} {rest : List Char} (line : Nat)
    (hclosed : ∀ piece ∈ pieces, Closed piece)
    (hrest : Spread (offset + Text.byteLength (pieceText pieces)) rest comments)
    (h : ∀ k ∈ comments, offset + Text.byteLength (pieceText pieces) ≤ k.start) :
    Spread offset (pieceText pieces ++ rest) (Gap.commentsFrom offset line pieces ++ comments) := by
  induction pieces generalizing offset line with
  | nil => exact hrest
  | cons piece pieces ih =>
    obtain ⟨hpiece, hmore⟩ := List.forall_mem_cons.mp hclosed
    have htext : pieceText (piece :: pieces) = piece.text ++ pieceText pieces := rfl
    rw [htext, Part.byteLength_append, ← Nat.add_assoc] at hrest h
    rw [htext, List.append_assoc]
    have hgo := fun line => ih line hmore hrest h
    cases piece with
    | blanks text =>
      refine .chars (hgo _) fun k hk => ?_
      rcases List.mem_append.mp hk with hk | hk
      · exact commentsFrom_start _ k hk
      · exact Nat.le_of_add_right_le (h k hk)
    | comment block text =>
      obtain ⟨hne, hlast, hblock⟩ := hpiece
      rw [Gap.commentsFrom, List.cons_append]
      refine .comment rfl rfl hne hlast (fun hfeed => ⟨hblock hfeed, ?_⟩) (hgo _)
      exact List.any_eq_true.mpr ⟨'\n', hfeed, rfl⟩

/-- The comments of a scan stand in its text. -/
theorem Reads.spread {d : Dialect} {seen : SlashReader.Context} {fresh : Bool}
    {lead : List Gap.Piece} {cells : List Cell}
    (h : Reads d seen fresh offset text lead cells comments) : Spread offset text comments := by
  induction h with
  | @finish _ _ offset text pieces line hscan =>
    rw [← pieceText_scanFrom hscan, ← List.append_nil (Gap.commentsFrom _ _ _)]
    exact .pieces line (closed_of_scan hscan) .nil (by simp)
  | @token _ _ offset text pieces t slice rest gap cells comments line hscan _ _ hstart hstop _ hmore
      ih =>
    have hbegin := hmore.comments_start
    rw [hstop, hstart] at hbegin ih
    rw [← pieceText_scanFrom hscan]
    exact .pieces line (closed_of_scan hscan) (.chars ih hbegin)
      fun k hk => Nat.le_of_add_right_le (hbegin k hk)

/-! ## Rows and lines -/

/-- The texts of the lines that are left as they are. -/
def whole (lines : List Line) : List (List Char) :=
  (lines.filter fun line => line.render = line.text).map Line.text

/-- Lines keep the clear ones among rows, and at least those in front of the last two. -/
structure Keeps (rows : List (List (Char × Bool))) (lines : List Line) : Prop where
  all : ¬ TrimsBeforeEnd rows → (clearLines rows).Sublist (whole lines)
  front : (clearLines rows.dropLast.dropLast).Sublist (whole lines)

theorem clearLines_sublist {rows more : List (List (Char × Bool))} (h : rows.Sublist more) :
    (clearLines rows).Sublist (clearLines more) := (h.filter _).map _

theorem clearLines_subset (rows : List (List (Char × Bool))) :
    (clearLines rows).Sublist (rows.map (·.map Prod.fst)) := List.filter_sublist.map _

theorem front_cons (row : List (Char × Bool)) (rest : List (List (Char × Bool))) :
    (row :: rest).dropLast.dropLast.Sublist (row :: rest.dropLast.dropLast) := by
  match rest with
  | [] | [_] => exact List.nil_sublist _
  | _ :: _ :: _ => exact List.Sublist.refl _

theorem TrimsBeforeEnd.cons (h : TrimsBeforeEnd rest) : TrimsBeforeEnd (row :: rest) := by
  obtain ⟨hlast, before, hbefore, htrims⟩ := h
  match rest with
  | [] | [_] => simp at hbefore
  | _ :: _ :: _ => exact ⟨hlast, before, hbefore, htrims⟩

namespace Keeps
variable {lines : List Line} {line : Line}

theorem of_none (h : clearLines rest = []) : Keeps rest lines := by
  have hfront := clearLines_sublist ((List.dropLast_sublist rest.dropLast).trans
    (List.dropLast_sublist rest))
  rw [h, List.sublist_nil] at hfront
  exact ⟨fun _ => h ▸ List.nil_sublist _, hfront ▸ List.nil_sublist _⟩

theorem skip (h : Keeps rest lines) (hrow : isClear row = false) : Keeps (row :: rest) lines := by
  have hskip : ∀ rest, clearLines (row :: rest) = clearLines rest := fun rest => by
    simp [clearLines, hrow]
  refine ⟨fun hends => ?_, (clearLines_sublist (front_cons row rest)).trans ?_⟩
  · rw [hskip]
    exact h.all fun hrest => hends hrest.cons
  · rw [hskip]
    exact h.front

theorem put (h : Keeps rest lines) : Keeps rest (line :: lines) := by
  have hmore : (whole lines).Sublist (whole (line :: lines)) :=
    ((List.sublist_cons_self _ _).filter _).map _
  exact ⟨fun hends => (h.all hends).trans hmore, h.front.trans hmore⟩

theorem feed (h : Keeps rest lines) (hrow : isClear row = true → line = ⟨false, row.map Prod.fst⟩) :
    Keeps (row :: rest) (line :: lines) := by
  cases hclear : isClear row with
  | false => exact h.put.skip hclear
  | true =>
    obtain rfl := hrow hclear
    have hput : ∀ rest, clearLines (row :: rest) = row.map Prod.fst :: clearLines rest :=
      fun rest => by simp [clearLines, hclear]
    have hwhole : whole (⟨false, row.map Prod.fst⟩ :: lines)
        = row.map Prod.fst :: whole lines := by simp [whole, Line.render]
    refine ⟨fun hends => ?_, (clearLines_sublist (front_cons row rest)).trans ?_⟩
    · rw [hput, hwhole]
      exact (h.all fun hrest => hends hrest.cons).cons_cons _
    · rw [hput, hwhole]
      exact h.front.cons_cons _

theorem skips {more : List (List (Char × Bool))} (h : Keeps rest lines)
    (hmore : ∀ row ∈ more, isClear row = false) : Keeps (more ++ rest) lines := by
  induction more with
  | nil => exact h
  | cons row more ih =>
    obtain ⟨hrow, hmore⟩ := List.forall_mem_cons.mp hmore
    exact (ih hmore).skip hrow

end Keeps

/-! ## From the comments of a text to its lines -/

/-- The rows that the characters of a comment end, and the one they begin or go on with. -/
theorem rowsFrom_comment {body : List Char} (hne : body ≠ []) (hlast : body.getLast? ≠ some '\n') :
    ∃ ended current,
      (∀ marks, rowsFrom sofar (body.map (·, true) ++ marks) = ended ++ rowsFrom current marks)
        ∧ (∀ row ∈ ended, isClear row = false) ∧ isClear current = false
        ∧ ('\n' ∉ body → ended = [] ∧ current = (body.map (·, true)).reverse ++ sofar) := by
  induction body generalizing sofar with
  | nil => exact absurd rfl hne
  | cons c body ih =>
    by_cases hbody : body = []
    · subst hbody
      have hc : c ≠ '\n' := by simpa using hlast
      refine ⟨[], (c, true) :: sofar, fun marks => ?_, by simp, rfl, fun _ => ⟨rfl, rfl⟩⟩
      rw [List.map_cons, List.cons_append, rowsFrom, if_neg (by simpa using hc)]
      rfl
    · have hlast : body.getLast? ≠ some '\n' := by
        rwa [List.getLast?_cons_of_ne_nil hbody] at hlast
      by_cases hc : c = '\n'
      · obtain ⟨ended, current, hrows, hended, hcurrent, -⟩ := @ih [] hbody hlast
        refine ⟨((c, true) :: sofar).reverse :: ended, current, fun marks => ?_, ?_, hcurrent,
          fun hfeed => by simp [hc] at hfeed⟩
        · rw [List.map_cons, List.cons_append, rowsFrom, if_pos (by simpa using hc), hrows]
          rfl
        · exact List.forall_mem_cons.mpr ⟨by simp [isClear], hended⟩
      · obtain ⟨ended, current, hrows, hended, hcurrent, hplain⟩ :=
          @ih ((c, true) :: sofar) hbody hlast
        refine ⟨ended, current, fun marks => ?_, hended, hcurrent, fun hfeed => ?_⟩
        · rw [List.map_cons, List.cons_append, rowsFrom, if_neg (by simpa using hc), hrows]
        · obtain ⟨hnone, hrest⟩ := hplain fun hmem => hfeed (List.mem_cons_of_mem _ hmem)
          exact ⟨hnone, by simp [hrest]⟩

/-- The last line done, first in its list, counts as touched. -/
def touchLast : List Line → List Line
  | [] => []
  | line :: done => { line with touched := true } :: done

/-- What items lead to behind some lines that are done: new lines that keep what is clear among the
rows; or a touch on the last line done, when they have no characters and the one row left is the
current one, with nothing but comments behind. -/
inductive Outcome (touched : Bool) (sofar : List Char) (items : List Item)
    (current : List (Char × Bool)) (rows : List (List (Char × Bool))) : Prop
  | lines (new : List Line) :
      (∀ done, linesFrom touched sofar done items = done.reverse ++ new) → Keeps rows new →
      Outcome touched sofar items current rows
  | touch (behind : List (Char × Bool)) : sofar = [] →
      (∀ done, linesFrom touched sofar done items = (touchLast done).reverse) →
      (∀ m ∈ behind, m.2 = true) → rows = [current.reverse ++ behind] →
      isClear (current.reverse ++ behind) = false → Outcome touched sofar items current rows

/-- As long as no comment was met on a line, its characters so far are those of the row. -/
def InStep (current : List (Char × Bool)) (touched : Bool) (sofar : List Char) : Prop :=
  isClear current = true → touched = false ∧ sofar = current.map Prod.fst

theorem inStep_of_not_clear {current : List (Char × Bool)} (h : isClear current = false)
    (touched : Bool) (sofar : List Char) : InStep current touched sofar :=
  fun hclear => by simp [h] at hclear

theorem InStep.char {current : List (Char × Bool)} {touched : Bool} {sofar : List Char}
    (h : InStep current touched sofar) (c : Char) :
    InStep ((c, false) :: current) touched (c :: sofar) := fun hclear => by
  obtain ⟨htouched, hsofar⟩ := h (by simpa [isClear] using hclear)
  exact ⟨htouched, by simp [hsofar]⟩

@[simp] theorem isClear_reverse (row : List (Char × Bool)) : isClear row.reverse = isClear row := by
  simp [isClear]

theorem keeps_last (row : List (Char × Bool)) (line : Line)
    (hrow : isClear row = true → line = ⟨false, row.map Prod.fst⟩) : Keeps [row] [line] :=
  (Keeps.of_none rfl).feed hrow

/-- The last row, with the end of the text behind it. -/
theorem outcome_end {current : List (Char × Bool)} {touched : Bool} {sofar : List Char}
    (h : InStep current touched sofar) :
    Outcome touched sofar [] current (rowsFrom current []) := by
  have hlines : ∀ done, linesFrom touched sofar done [] = (closeLines touched sofar done).reverse :=
    fun _ => rfl
  cases current with
  | nil =>
    obtain ⟨rfl, rfl⟩ := h rfl
    exact .lines [] (fun done => (List.append_nil _).symm) (.of_none rfl)
  | cons m current =>
    have hrows : rowsFrom (m :: current) [] = [(m :: current).reverse] := rfl
    rw [hrows]
    match sofar, touched with
    | c :: sofar, touched =>
      refine .lines [⟨touched, (c :: sofar).reverse⟩] (fun done => by simp [hlines, closeLines]) ?_
      refine keeps_last _ _ fun hclear => ?_
      obtain ⟨rfl, hsofar⟩ := h (by rwa [isClear_reverse] at hclear)
      rw [hsofar, List.map_reverse]
    | [], false =>
      refine .lines [] (fun done => by simp [hlines, closeLines]) (.of_none ?_)
      have hclear : isClear (m :: current) = false := by
        by_contra hclear
        simpa using (h (by simpa using hclear)).2
      simp only [clearLines, List.filter_cons, isClear_reverse, hclear]
      rfl
    | [], true =>
      have hclear : isClear (m :: current) = false := by
        by_contra hclear
        simpa using (h (by simpa using hclear)).1
      refine .touch [] rfl (fun done => ?_) (by simp) (by rw [List.append_nil]) ?_
      · rw [hlines]
        cases done <;> rfl
      · rwa [List.append_nil, isClear_reverse]

theorem filler_cases (comment : Comment) (before after : Option Char) :
    filler comment before after = ['\n']
      ∨ (filler comment before after = [] ∨ filler comment before after = [' '])
        ∧ ¬ (comment.block = true ∧ comment.hasNewline = true) := by
  unfold filler
  split
  · exact .inl rfl
  · next hno =>
    refine .inr ⟨?_, by simpa using hno⟩
    split
    · split
      · exact .inl rfl
      · exact .inr rfl
    · exact .inl rfl

/-- A row with nothing but comments behind it is kept if trimming leaves it alone. -/
theorem keeps_before_end {row behind : List (Char × Bool)} {line : Line}
    (hrow : isClear row = true → line = ⟨true, row.map Prod.fst⟩)
    (hbehind : ∀ m ∈ behind, m.2 = true)
    (hcomment : isClear behind = false) : Keeps [row, behind] [line] := by
  refine ⟨fun hno => ?_, List.nil_sublist _⟩
  have hlast : clearLines [row, behind] = clearLines [row] := by
    simp only [clearLines, List.filter_cons, hcomment, List.filter_nil]
    rfl
  rw [hlast]
  cases hclear : isClear row with
  | false => simp [clearLines, hclear]
  | true =>
    obtain rfl := hrow hclear
    have hfirm : Line.render ⟨true, row.map Prod.fst⟩ = row.map Prod.fst := by
      by_contra htrims
      exact hno ⟨⟨behind, rfl, hbehind⟩, row, rfl, htrims⟩
    simp [clearLines, whole, hclear, hfirm]

/-- A row that a kept line feed ends. -/
theorem Outcome.feed {current : List (Char × Bool)} {touched : Bool} {sofar : List Char}
    {items : List Item} (hstep : InStep current touched sofar)
    (h : Outcome false [] items [] rest) :
    Outcome touched sofar (.char '\n' :: items) current
      (((('\n', false) :: current).reverse) :: rest) := by
  have hlines : ∀ done, linesFrom touched sofar done (.char '\n' :: items)
      = linesFrom false [] (⟨touched, ('\n' :: sofar).reverse⟩ :: done) items := fun _ => rfl
  have hrow : isClear (('\n', false) :: current).reverse = true → touched = false
      ∧ ('\n' :: sofar).reverse = (('\n', false) :: current).reverse.map Prod.fst := fun hclear => by
    rw [isClear_reverse] at hclear
    obtain ⟨htouched, hsofar⟩ := hstep.char '\n' hclear
    exact ⟨htouched, by rw [hsofar, List.map_reverse]⟩
  cases h with
  | lines new hnew hkeeps =>
    refine .lines (⟨touched, ('\n' :: sofar).reverse⟩ :: new) (fun done => ?_) (hkeeps.feed ?_)
    · rw [hlines, hnew, List.reverse_cons, List.append_assoc]
      rfl
    · intro hclear
      obtain ⟨rfl, hsofar⟩ := hrow hclear
      rw [hsofar]
  | touch behind _ hnew hbehind hrows hcomment =>
    refine .lines [⟨true, ('\n' :: sofar).reverse⟩] (fun done => ?_) ?_
    · rw [hlines, hnew, touchLast, List.reverse_cons]
    · rw [hrows]
      exact keeps_before_end (fun hclear => by rw [(hrow hclear).2])
        (by simpa using hbehind) hcomment

/-- Rows that the characters of a comment end or go on with. -/
theorem Outcome.comment {current inside : List (Char × Bool)} {touched : Bool} {sofar : List Char}
    {items : List Item} {ended : List (List (Char × Bool))} {comment : Comment}
    {marked : List (Char × Bool)} {before after : Option Char}
    (hended : ∀ row ∈ ended, isClear row = false) (hmarked : ∀ m ∈ marked, m.2 = true)
    (hplain : ¬ (comment.block = true ∧ comment.hasNewline = true) →
      ended = [] ∧ inside = marked.reverse ++ current)
    (h : ∀ touched sofar, Outcome touched sofar items inside rest) :
    Outcome touched sofar (.cut :: (filler comment before after).map .char ++ items) current
      (ended ++ rest) := by
  rcases filler_cases comment before after with hput | ⟨hput | hput, hno⟩
  · have hlines : ∀ done, linesFrom touched sofar done
        (.cut :: (filler comment before after).map .char ++ items)
          = linesFrom false [] (⟨true, ('\n' :: sofar).reverse⟩ :: done) items := fun _ => by
      rw [hput]
      rfl
    cases h false [] with
    | lines new hnew hkeeps =>
      refine .lines (⟨true, ('\n' :: sofar).reverse⟩ :: new) (fun done => ?_)
        (hkeeps.skips hended).put
      rw [hlines, hnew, List.reverse_cons, List.append_assoc]
      rfl
    | touch behind _ hnew _ hrows hclear =>
      refine .lines [⟨true, ('\n' :: sofar).reverse⟩] (fun done => ?_) ?_
      · rw [hlines, hnew, touchLast, List.reverse_cons]
      · rw [hrows]
        exact (keeps_last _ _ fun hall => by simp [hclear] at hall).skips hended
  · obtain ⟨rfl, rfl⟩ := hplain hno
    have hlines : ∀ done, linesFrom touched sofar done
        (.cut :: (filler comment before after).map .char ++ items)
          = linesFrom true sofar done items := fun _ => by
      rw [hput]
      rfl
    cases h true sofar with
    | lines new hnew hkeeps => exact .lines new (fun done => by rw [hlines, hnew]) hkeeps
    | touch behind hnone hnew hbehind hrows hclear =>
      have hsplit : (marked.reverse ++ current).reverse ++ behind
          = current.reverse ++ (marked ++ behind) := by simp
      rw [hsplit] at hrows hclear
      refine .touch _ hnone (fun done => by rw [hlines, hnew]) ?_ hrows hclear
      exact List.forall_mem_append.mpr ⟨hmarked, hbehind⟩
  · obtain ⟨rfl, -⟩ := hplain hno
    have hlines : ∀ done, linesFrom touched sofar done
        (.cut :: (filler comment before after).map .char ++ items)
          = linesFrom true (' ' :: sofar) done items := fun _ => by
      rw [hput]
      rfl
    cases h true (' ' :: sofar) with
    | lines new hnew hkeeps => exact .lines new (fun done => by rw [hlines, hnew]) hkeeps
    | touch behind hnone => cases hnone

/-- What the cutting of comments makes of a text, from any place of a line on. -/
theorem Spread.outcome {comments : List Comment} {offset : Nat} {text : List Char}
    (h : Spread offset text comments) (before : Option Char) {current : List (Char × Bool)}
    {touched : Bool} {sofar : List Char} (hstep : InStep current touched sofar) :
    Outcome touched sofar (cutFrom before offset text comments) current
      (rowsFrom current (marksFrom comments offset text)) := by
  induction h generalizing before current touched sofar with
  | nil => exact outcome_end hstep
  | @kept place c after more hbehind _ ih =>
    have hcut : cutFrom before place (c :: after) more
        = .char c :: cutFrom (some c) (place + c.utf8Size) after more :=
      cutFrom_kept before [c] after hbehind
    rw [hcut, marksFrom_cons hbehind, rowsFrom]
    split
    · next hc =>
      obtain rfl : c = '\n' := by simpa using hc
      exact .feed hstep (ih _ fun _ => ⟨rfl, rfl⟩)
    · next hc =>
      have hlines : ∀ done items, linesFrom touched sofar done (.char c :: items)
          = linesFrom touched (c :: sofar) done items := fun done items => by
        rw [linesFrom, if_neg hc]
      cases ih (some c) (hstep.char c) with
      | lines new hnew hkeeps => exact .lines new (fun done => by rw [hlines, hnew]) hkeeps
      | touch behind hnone => cases hnone
  | @comment place comment body after more hstart hstop hne hlast hfeed _ ih =>
    obtain ⟨ended, inside, hrows, hended, hinside, hplain⟩ := rowsFrom_comment hne hlast
    rw [cutFrom_comment before comment body after more hstart hstop,
      marksFrom_comment (Nat.le_of_eq hstart) hstop, hrows]
    have hmarked : ∀ m ∈ body.map (·, true), m.2 = true := by simp
    refine .comment hended hmarked (fun hno => ?_)
      fun touched sofar => ih _ (inStep_of_not_clear hinside touched sofar)
    exact hplain fun hmem => hno (hfeed hmem)

/-! ## From the lines to the text that is left -/

theorem linesOf_feed {sofar body : List Char} (hbody : '\n' ∉ body) (rest : List Char) :
    linesOf sofar (body ++ '\n' :: rest) = (sofar.reverse ++ body ++ ['\n']) :: linesOf [] rest := by
  induction body generalizing sofar with
  | nil => simp [linesOf]
  | cons c body ih =>
    obtain ⟨hc, hbody⟩ := List.ne_and_not_mem_of_not_mem_cons hbody
    rw [List.cons_append, linesOf, if_neg (by simpa using Ne.symm hc), ih hbody]
    simp

theorem linesOf_plain {sofar body : List Char} (hbody : '\n' ∉ body) :
    linesOf sofar body = linesOf (body.reverse ++ sofar) [] := by
  induction body generalizing sofar with
  | nil => rfl
  | cons c body ih =>
    obtain ⟨hc, hbody⟩ := List.ne_and_not_mem_of_not_mem_cons hbody
    have hstep : linesOf sofar (c :: body) = linesOf (c :: sofar) body := by
      rw [linesOf, if_neg (by simpa using Ne.symm hc)]
    rw [hstep, ih hbody, List.reverse_cons, List.append_assoc]
    rfl

/-- A line is left with one line feed or not at all. -/
theorem render_feed {body : List Char} (hbody : '\n' ∉ body) (touched : Bool) :
    Line.render ⟨touched, body ++ ['\n']⟩ = []
      ∨ ∃ left, '\n' ∉ left ∧ Line.render ⟨touched, body ++ ['\n']⟩ = left ++ ['\n'] := by
  cases touched with
  | false => exact .inr ⟨body, hbody, rfl⟩
  | true =>
    obtain ⟨content, ending, hsplit, htext, hends⟩ := splitEnding_eq (body ++ ['\n'])
    rw [Line.render, if_pos rfl, hsplit]
    dsimp only
    split
    · exact .inl rfl
    refine .inr ?_
    have hcontent : ∀ more, body = content ++ more → '\n' ∉ Text.trimEnd content :=
      fun more h hmem => hbody (h ▸ List.mem_append_left _ (trimEnd_subset content hmem))
    rcases hends with rfl | ⟨rfl, -⟩ | ⟨rfl, hno⟩
    · have hbody : body = content ++ ['\r'] := by
        refine (List.append_inj' (?_ : body ++ ['\n'] = (content ++ ['\r']) ++ ['\n']) rfl).1
        simpa using htext
      exact ⟨Text.trimEnd content ++ ['\r'], by simp [hcontent _ hbody], by simp⟩
    · have hbody : body = content ++ [] := by
        rw [List.append_nil]
        exact (List.append_inj' htext rfl).1
      exact ⟨Text.trimEnd content, hcontent _ hbody, rfl⟩
    · exact absurd List.getLast?_concat hno

/-- The last line, without a line feed, is left as it is or not among those that are. -/
theorem whole_last_sublist {line : Line} (hne : line.text ≠ []) (hfeed : '\n' ∉ line.text) :
    (whole [line]).Sublist (linesOf [] line.render) := by
  by_cases hwhole : line.render = line.text
  · have hself : linesOf [] line.text = [line.text] := by
      rw [linesOf_plain hfeed, List.append_nil]
      cases hrev : line.text.reverse with
      | nil => exact absurd (List.reverse_eq_nil_iff.mp hrev) hne
      | cons c text => rw [← List.reverse_reverse line.text, hrev]; rfl
    simp [whole, hwhole, hself]
  · simp [whole, hwhole]

/-- A line that ends in a line feed is a line of what is left, or not among those left as they
are. -/
theorem whole_feed_sublist {body : List Char} {touched : Bool} {lines : List Line}
    {left : List Char} (hbody : '\n' ∉ body) (h : (whole lines).Sublist (linesOf [] left)) :
    (whole (⟨touched, body ++ ['\n']⟩ :: lines)).Sublist
      (linesOf [] (Line.render ⟨touched, body ++ ['\n']⟩ ++ left)) := by
  by_cases hwhole : Line.render ⟨touched, body ++ ['\n']⟩ = body ++ ['\n']
  · have hcons : whole (⟨touched, body ++ ['\n']⟩ :: lines) = (body ++ ['\n']) :: whole lines := by
      simp [whole, hwhole]
    rw [hcons, hwhole, List.append_assoc, List.singleton_append, linesOf_feed hbody]
    exact h.cons_cons _
  · have hskip : whole (⟨touched, body ++ ['\n']⟩ :: lines) = whole lines := by
      simp [whole, hwhole]
    rw [hskip]
    rcases render_feed hbody touched with hnone | ⟨text, htext, hrender⟩
    · rw [hnone]
      exact h
    · rw [hrender, List.append_assoc, List.singleton_append, linesOf_feed htext]
      exact h.cons _

/-- The lines that are left as they are are lines of what is left. -/
theorem whole_sublist {sofar text : List Char} {lines : List Line} (hsofar : '\n' ∉ sofar)
    (h : lines.map Line.text = linesOf sofar text) :
    (whole lines).Sublist (linesOf [] (lines.flatMap Line.render)) := by
  induction text generalizing sofar lines with
  | nil =>
    cases sofar with
    | nil =>
      obtain rfl : lines = [] := by simpa [linesOf] using h
      exact List.nil_sublist _
    | cons c sofar =>
      obtain ⟨line, rfl, hline⟩ : ∃ line, lines = [line] ∧ line.text = (c :: sofar).reverse := by
        simpa [linesOf, List.map_eq_singleton_iff] using h
      rw [List.flatMap_singleton]
      refine whole_last_sublist ?_ ?_
      · simp [hline]
      · rwa [hline, List.mem_reverse]
  | cons c text ih =>
    rw [linesOf] at h
    split at h
    · next hc =>
      obtain rfl : c = '\n' := by simpa using hc
      obtain ⟨⟨touched, line⟩, more, rfl, hline, hmore⟩ := List.map_eq_cons_iff.mp h
      rw [List.reverse_cons] at hline
      subst hline
      rw [List.flatMap_cons]
      exact whole_feed_sublist (by simpa using hsofar) (ih List.not_mem_nil hmore)
    · next hc =>
      refine @ih (c :: sofar) lines ?_ h
      simp [hsofar, Ne.symm (show c ≠ '\n' by simpa using hc)]

theorem Spread.keeps {comments : List Comment} {text : List Char} (h : Spread 0 text comments) :
    Keeps (rowsFrom [] (marksFrom comments 0 text))
      (linesFrom false [] [] (cutFrom none 0 text comments)) := by
  have hstep : InStep [] false [] := fun _ => ⟨rfl, rfl⟩
  cases h.outcome none hstep with
  | lines new hnew hkeeps =>
    rw [hnew]
    exact hkeeps
  | touch behind _ hnew _ hrows hclear =>
    rw [hrows]
    exact .of_none (by simp only [clearLines, List.filter_cons, hclear]; rfl)

/-- Whatever a scan finds, the lines without a character of a comment are left as they are and in
their order. Only the line before a last one that is made of comments alone may be trimmed. -/
theorem removeCommentsByTokens_lines {text out : String} {d : Dialect}
    (h : removeCommentsByTokens text d = .ok out) :
    (rows text d).map (·.map Prod.fst) = linesOf [] text.toList
      ∧ (¬ TrimsBeforeEnd (rows text d) →
        (clearLines (rows text d)).Sublist (linesOf [] out.toList))
      ∧ (clearLines (rows text d).dropLast.dropLast).Sublist (linesOf [] out.toList) := by
  refine ⟨rows_lines text d, ?_⟩
  obtain ⟨hok, rfl⟩ : (scan text d).failure = none
      ∧ out = String.ofList (without (scan text d).comments text.toList) := by
    rw [removeCommentsByTokens] at h
    cases hfailure : (scan text d).failure with
    | none => simpa [hfailure, eq_comm] using h
    | some problem => simp [hfailure] at h
  rw [String.toList_ofList, without]
  split
  · have hall := clearLines_subset (rows text d)
    rw [rows_lines] at hall
    have hfront := clearLines_sublist ((List.dropLast_sublist (rows text d).dropLast).trans
      (List.dropLast_sublist _))
    exact ⟨fun _ => hall, hfront.trans hall⟩
  · obtain ⟨lead, cells, eof, hreads, -⟩ := scan_reads hok
    have hkeeps := hreads.spread.keeps
    have hleft := whole_sublist List.not_mem_nil
      (linesFrom_texts false [] [] (cutFrom none 0 text.toList (scan text d).comments))
    exact ⟨fun hno => (hkeeps.all hno).trans hleft, hkeeps.front.trans hleft⟩

/-- White space and blank lines around a line of a comment and a comment of two lines. -/
theorem removeCommentsByTokens_lines_blank :
    removeCommentsByTokens "a \n\n// c\n \n/* d\n*/ e \r\nb" .v13 = .ok "a \n\n \n e \r\nb"
      ∧ ¬ TrimsBeforeEnd (rows "a \n\n// c\n \n/* d\n*/ e \r\nb" .v13)
      ∧ clearLines (rows "a \n\n// c\n \n/* d\n*/ e \r\nb" .v13)
        = ["a \n".toList, "\n".toList, " \n".toList, "b".toList]
      ∧ (clearLines (rows "a \n\n// c\n \n/* d\n*/ e \r\nb" .v13)).Sublist
        (linesOf [] "a \n\n \n e \r\nb".toList) := by
  have h : removeCommentsByTokens "a \n\n// c\n \n/* d\n*/ e \r\nb" .v13
      = .ok "a \n\n \n e \r\nb" := by rfl
  have hno : ¬ TrimsBeforeEnd (rows "a \n\n// c\n \n/* d\n*/ e \r\nb" .v13) := by
    unfold TrimsBeforeEnd
    decide +kernel
  exact ⟨h, hno, by decide +kernel, (removeCommentsByTokens_lines h).2.1 hno⟩

/-- A comment alone on the last line trims the line before it, which it does not reach into. -/
theorem removeCommentsByTokens_lines_last :
    removeCommentsByTokens "a  \n// c" .v13 = .ok "a\n"
      ∧ clearLines (rows "a  \n// c" .v13) = ["a  \n".toList]
      ∧ ¬ ∀ text out, removeCommentsByTokens text .v13 = .ok out →
        (clearLines (rows text .v13)).Sublist (linesOf [] out.toList) := by
  have h : removeCommentsByTokens "a  \n// c" .v13 = .ok "a\n" := by rfl
  have hclear : clearLines (rows "a  \n// c" .v13) = ["a  \n".toList] := by decide +kernel
  refine ⟨h, hclear, fun hall => ?_⟩
  have hkept := hall _ _ h
  rw [hclear] at hkept
  exact absurd hkept (by decide)

end CommentRemoval
end ScriptPress
