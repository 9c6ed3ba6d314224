import ScriptPress.CommentRemoval
import ScriptPress.Proofs.Lexical.Tiling

/-! # What a scan reads

A scan of a whole text, told by its tokens: each with the characters it takes and the gap behind it.
The relation between a text and its tokens leaves the lexer out, so that a text can be followed
while another one is read.
-/
namespace ScriptPress
namespace CommentRemoval

/-- A token, the characters it takes, and the pieces of the gap behind it. -/
structure Cell where
  token : Token
  slice : List Char
  gap : List Gap.Piece

/-- The characters of pieces. -/
def pieceText (pieces : List Gap.Piece) : List Char := pieces.flatMap Gap.Piece.text

/-- The text that cells take together. -/
def cellText (cells : List Cell) : List Char :=
  cells.flatMap fun cell => cell.slice ++ pieceText cell.gap

/-- How a reader that has seen other tokens reads a token at the head of a text. -/
inductive Opens (d : Dialect) (seen : SlashReader.Context) (t : Token) (slice rest : List Char) :
    Prop
  | lexeme {c} : slice.head? = some c →
      Lexer.lexeme d c (slice ++ rest) = .ok (.of t.sym slice rest) →
      (t.isSlash && (reader d).opensRegExp seen t) = false → Opens d seen t slice rest
  | pattern {body} : slice = '/' :: body → t.sym = .pattern slice →
      (∀ slash, (reader d).opensRegExp seen slash = true) → d.hasRegExpLiterals = true →
      Literal.regExp (body ++ rest) = .token body rest → Opens d seen t slice rest

/-- A scan reads a text from a byte offset on: the pieces in front of the first token, the tokens,
and the comments on the way. -/
inductive Reads (d : Dialect) : (seen : SlashReader.Context) → (fresh : Bool) → (offset : Nat) →
    List Char → List Gap.Piece → List Cell → List Comment → Prop
  | finish {seen fresh offset text pieces} (line : Nat) :
      Gap.scanFrom (.between fresh) text = ⟨pieces, none, []⟩ →
      Reads d seen fresh offset text pieces [] (Gap.commentsFrom offset line pieces)
  | token {seen fresh offset text pieces t slice rest gap cells comments} (line : Nat) :
      Gap.scanFrom (.between fresh) text = ⟨pieces, none, slice ++ rest⟩ → slice ≠ [] →
      Opens d seen t slice rest → t.start = offset + Text.byteLength (pieceText pieces) →
      t.stop = t.start + Text.byteLength slice → t.newlineBefore = Gap.breaks pieces →
      Reads d ((reader d).note seen t) false t.stop rest gap cells comments →
      Reads d seen fresh offset text pieces (⟨t, slice, gap⟩ :: cells)
        (Gap.commentsFrom offset line pieces ++ comments)

variable {d : Dialect} {seen : SlashReader.Context} {fresh : Bool} {offset : Nat}
  {text : List Char} {lead : List Gap.Piece} {cells : List Cell} {comments : List Comment}

theorem pieceText_scanFrom {pieces : List Gap.Piece} {rest : List Char}
    (h : Gap.scanFrom (.between fresh) text = ⟨pieces, none, rest⟩) :
    pieceText pieces ++ rest = text := by
  have hwhole := (Gap.scanFrom_tiles .v13 (by rw [h])).whole
  rw [h, Gap.parts, Part.texts, List.flatMap_map] at hwhole
  exact hwhole

/-- The pieces and the cells are the text. -/
theorem Reads.text_eq (h : Reads d seen fresh offset text lead cells comments) :
    text = pieceText lead ++ cellText cells := by
  induction h with
  | finish line hscan =>
    rw [← pieceText_scanFrom hscan]
    rfl
  | token line hscan _ _ _ _ _ _ ih =>
    rw [← pieceText_scanFrom hscan, ih]
    simp [cellText]

/-! ## The scan itself -/

/-- A successful second reading of a slash, by what the text behind the slash is. -/
theorem rescan_pattern {lx lx' : Lexer} {slash t : Token} (h : lx.rescan slash = (.ok t, lx')) :
    lx.dialect.hasRegExpLiterals = true ∧ ∃ body,
      Literal.regExp (slash.reopen lx.rest) = .token body lx'.rest
      ∧ t.sym = .pattern ('/' :: body) ∧ t.newlineBefore = slash.newlineBefore := by
  have hreopen : (if slash.tag == .assign then '=' :: lx.rest else lx.rest)
      = slash.reopen lx.rest := rfl
  by_cases hd : lx.dialect.hasRegExpLiterals = true
  · cases hscan : Literal.regExp (slash.reopen lx.rest) with
    | problem p taken =>
      simp only [Lexer.rescan, hd, hreopen, hscan] at h
      cases h
    | token body rest =>
      simp only [Lexer.rescan, hd, hreopen, hscan, Bool.not_true, Bool.false_eq_true, if_false,
        Prod.mk.injEq, Except.ok.injEq] at h
      obtain ⟨rfl, rfl⟩ := h
      exact ⟨hd, body, rfl, rfl, rfl⟩
  · simp [Lexer.rescan, hd] at h

/-- A token tells whether a line ended in the gap before it. -/
theorem next_breaks {lx lx' : Lexer} {t : Token} (h : lx.next = (.ok t, lx')) :
    t.newlineBefore = Gap.breaks (Gap.scanFrom (.between lx.fresh) lx.rest).pieces := by
  rw [Lexer.next] at h
  dsimp only at h
  split at h
  · cases h
  · split at h
    · obtain ⟨rfl, -⟩ := Prod.mk.inj h |>.imp_left Except.ok.inj
      rfl
    · split at h
      · cases h
      · obtain ⟨rfl, -⟩ := Prod.mk.inj h |>.imp_left Except.ok.inj
        rfl

/-- What a lexer did that passed a gap and read a token. -/
structure Takes (lx : Lexer) (t : Token) (pieces : List Gap.Piece) (slice : List Char)
    (lx' : Lexer) : Prop where
  gap : Gap.scanFrom (.between lx.fresh) lx.rest = ⟨pieces, none, slice ++ lx'.rest⟩
  nonempty : slice ≠ []
  start : t.start = lx.position + Text.byteLength (pieceText pieces)
  stop : t.stop = t.start + Text.byteLength slice
  breaks : t.newlineBefore = Gap.breaks pieces
  position : lx'.position = t.stop
  fresh : lx'.fresh = false
  comments : lx.keepComments = true →
    lx'.comments = lx.comments ++ Gap.commentsFrom lx.position lx.line pieces
  like : lx'.Like lx
  tag : t.tag ≠ .endOfInput

/-- A slash that is read again takes the place of the token it was. -/
theorem Takes.rescan {lx lx₁ lx₂ : Lexer} {slash t : Token} {pieces : List Gap.Piece}
    {slice : List Char} (h : Takes lx slash pieces slice lx₁) (hslash : slash.isSlash = true)
    (hspells : slash.Spells lx.dialect slice lx₁.rest)
    (hopens : ∀ slash, (reader lx.dialect).opensRegExp seen slash = true)
    (hr : lx₁.rescan slash = (.ok t, lx₂)) :
    ∃ slice, Takes lx t pieces slice lx₂ ∧ Opens lx.dialect seen t slice lx₂.rest := by
  obtain ⟨hdialect, body, hregExp, hsym, hbreaks⟩ := rescan_pattern hr
  obtain ⟨taken, hsplit, htag, -, -, hstart, hstop, hposition, hfresh, hcomments, hlike⟩ :=
    Lexer.rescan_inv hr
  obtain ⟨hbody, -, -, -⟩ := Literal.regExp_token hregExp
  obtain rfl : body = taken := List.append_cancel_right (hbody.symm.trans hsplit)
  refine ⟨'/' :: body, ⟨?_, by simp, hstart.trans h.start, ?_, hbreaks.trans h.breaks, hstop.symm,
    hfresh.trans h.fresh, fun hkeep => hcomments.trans (h.comments hkeep),
    ⟨hlike.1.trans h.like.1, hlike.2.trans h.like.2⟩, by simp [htag]⟩,
    .pattern rfl hsym hopens (h.like.1 ▸ hdialect) (hsplit ▸ hregExp)⟩
  · rw [h.gap, Lexer.slash_slice hspells hslash, hsplit]
    rfl
  · have hslash : Char.utf8Size '/' = 1 := rfl
    rw [hstop, hposition, hstart]
    simp only [Text.byteLength, List.foldr_cons, hslash]
    omega

/-- A step of a scan reads the end of the text or a token. -/
theorem readToken_ok {lx lx' : Lexer} {t : Token}
    (h : TokenStream.readToken (reader lx.dialect) seen lx = (.ok t, lx')) :
    (∃ pieces, Gap.scanFrom (.between lx.fresh) lx.rest = ⟨pieces, none, []⟩
      ∧ t.tag = .endOfInput ∧ (lx.keepComments = true →
        lx'.comments = lx.comments ++ Gap.commentsFrom lx.position lx.line pieces))
    ∨ ∃ pieces slice, Takes lx t pieces slice lx' ∧ Opens lx.dialect seen t slice lx'.rest := by
  cases hnext : lx.next with
  | mk result lx₁ =>
    cases result with
    | error problem => simp [TokenStream.readToken, hnext] at h
    | ok first =>
      have hbreaks := next_breaks hnext
      obtain ⟨⟨pieces, unfinished, rest⟩, hgap, rfl, hstart, hcase⟩ := Lexer.next_inv hnext
      rw [hgap] at hbreaks
      rw [TokenStream.readToken, hnext] at h
      dsimp only at h
      obtain ⟨rfl, htag, -, rfl⟩ | ⟨c, l, hc, hl, hof, hstop, rfl⟩ := hcase
      · rw [if_neg (by simp [Token.isSlash, htag])] at h
        obtain ⟨rfl, rfl⟩ : first = t ∧ _ = lx' := by simpa using h
        exact .inl ⟨pieces, hgap, htag, fun hkeep => by simp [Lexer.pass, hkeep]⟩
      rw [hof] at hl
      obtain ⟨hsplit, hne, -⟩ := Lexer.lexeme_ok hc hl
      dsimp only at hsplit hc hl
      subst hsplit
      have htakes : Takes lx first pieces l.taken
          ({ lx.pass ⟨pieces, none, l.taken ++ l.rest⟩ with fresh := false }.advance l.taken l.rest) :=
        ⟨hgap, hne, hstart, hstop, hbreaks, by rw [hstop, hstart]; rfl, rfl, fun hkeep => by
          simp [Lexer.pass, Lexer.advance, hkeep], ⟨rfl, rfl⟩, (Lexer.lexeme_kind hc hl).tags.2.1⟩
      right
      by_cases hslash : (first.isSlash && (reader lx.dialect).opensRegExp seen first) = true
      · rw [if_pos hslash] at h
        obtain ⟨hslash, hopens⟩ := Bool.and_eq_true_iff.mp hslash
        exact ⟨pieces, htakes.rescan hslash (Lexer.spells_of_lexeme hc hl) (fun _ => hopens) h⟩
      · rw [if_neg hslash] at h
        obtain ⟨rfl, rfl⟩ : first = t ∧ _ = lx' := by simpa using h
        have hhead : l.taken.head? = some c := by
          cases htaken : l.taken with
          | nil => exact absurd htaken hne
          | cons b more => rwa [htaken] at hc
        exact ⟨pieces, l.taken, htakes, .lexeme hhead hl (by simpa using hslash)⟩

/-- A scan that ends reads its text. -/
theorem readFrom_reads {fuel : Nat} {lx : Lexer} (hd : lx.dialect = d)
    (hfuel : lx.rest.length < fuel) (hkeep : lx.keepComments = true) (hnone : lx.comments = [])
    (hok : (TokenStream.readFrom (reader d) fuel seen lx).failure = none) :
    ∃ lead cells eof, Reads d seen lx.fresh lx.position lx.rest lead cells
        (TokenStream.readFrom (reader d) fuel seen lx).comments
      ∧ (TokenStream.readFrom (reader d) fuel seen lx).tokens.map Prod.fst
        = cells.map Cell.token ++ [eof] ∧ eof.tag = .endOfInput := by
  induction fuel generalizing lx seen with
  | zero => omega
  | succ fuel ih =>
    subst hd
    rw [TokenStream.readFrom] at hok ⊢
    cases hread : TokenStream.readToken (reader lx.dialect) seen lx with
    | mk result lx' =>
      cases result with
      | error problem => simp [hread] at hok
      | ok t =>
        simp only [hread] at hok ⊢
        obtain ⟨pieces, hgap, htag, hcomments⟩ | ⟨pieces, slice, htakes, hopens⟩ := readToken_ok hread
        · rw [if_pos (by simp [htag])]
          have hcomments := hcomments hkeep
          rw [hnone, List.nil_append] at hcomments
          refine ⟨pieces, [], t, ?_, rfl, htag⟩
          rw [TokenStream.comments, List.flatMap_singleton, Lexer.takeComments, hcomments]
          exact .finish lx.line hgap
        · rw [if_neg (by simp [htakes.tag])] at hok ⊢
          have hcomments := htakes.comments hkeep
          rw [hnone, List.nil_append] at hcomments
          have hlength : lx'.rest.length < fuel := by
            have hle := Gap.scanFrom_length (.between lx.fresh) lx.rest
            have hpos := List.length_pos_iff.mpr htakes.nonempty
            rw [htakes.gap, List.length_append] at hle
            omega
          obtain ⟨gap, cells, eof, hreads, htokens, heof⟩ :=
            @ih _ lx'.takeComments.2 htakes.like.1 hlength (htakes.like.2.trans hkeep) rfl hok
          have hreads : Reads lx.dialect _ lx'.fresh lx'.position lx'.rest gap cells _ := hreads
          rw [htakes.fresh, htakes.position] at hreads
          have hmore := Reads.token lx.line htakes.gap htakes.nonempty hopens htakes.start htakes.stop
            htakes.breaks hreads
          rw [← hcomments] at hmore
          exact ⟨pieces, ⟨t, slice, gap⟩ :: cells, eof, hmore, congrArg (t :: ·) htokens, heof⟩

theorem scan_reads {text : String} (hok : (scan text d).failure = none) :
    ∃ lead cells eof, Reads d {} true 0 text.toList lead cells (scan text d).comments
      ∧ (scan text d).tokens.map Prod.fst = cells.map Cell.token ++ [eof]
      ∧ eof.tag = .endOfInput :=
  @readFrom_reads d {} _ (Lexer.start text d 1 true) rfl (Nat.lt_succ_self _) rfl rfl hok

end CommentRemoval
end ScriptPress
