import Mathlib.Data.List.Forall2
import ScriptPress.Proofs.Removal.Cuts

/-! # Comment removal touches only what lies between tokens

The characters of a token stay as they are, white space and continued lines inside a string
included. Of what lies between two tokens blanks are left, none just where there were none, and a
line ends there just where one ended before.
-/
namespace ScriptPress
namespace CommentRemoval

/-! ## The characters of tokens -/

theorem sturdy_of_chars {text : List Char} (hall : ∀ c ∈ text, c ≠ '\n')
    (hlast : ∃ c ∈ text.getLast?, Lexer.isSpace c = false) : Sturdy text := by
  induction text with
  | nil => simp at hlast
  | cons c text ih =>
    obtain ⟨hc, hall⟩ := List.forall_mem_cons.mp hall
    cases text with
    | nil =>
      obtain ⟨b, hb, hspace⟩ := hlast
      obtain rfl : c = b := by simpa using hb
      exact .last hspace
    | cons b text => exact .plain hc (ih hall (by rwa [List.getLast?_cons_cons] at hlast))

theorem feed_space : Lexer.isSpace '\n' = true := by decide

theorem ne_feed {c : Char} (h : Lexer.isSpace c = false) : c ≠ '\n' := by
  rintro rfl
  rw [feed_space] at h
  cases h

/-- What a part of a string is, with the characters in front of it that its place remembers. -/
def StringPart : Literal.StringPlace → List Char → Prop
  | .plain true, taken => Sturdy ('\\' :: '\r' :: taken)
  | .plain false, taken | .hex _, taken => Sturdy taken
  | .escape, taken => Sturdy ('\\' :: taken)

theorem stringPart_of_sturdy {taken : List Char} (feed : Bool) (h : Sturdy taken) :
    StringPart (.plain feed) taken := by
  cases feed with
  | false => exact h
  | true => exact .plain (by decide) (.plain (by decide) h)

theorem stringFrom_sturdy {quote : Char} (hquote : Lexer.isSpace quote = false)
    {place : Literal.StringPlace} {text taken rest : List Char}
    (h : Literal.stringFrom quote place text = .token taken rest) : StringPart place taken := by
  induction text generalizing place taken with
  | nil => cases place <;> simp [Literal.stringFrom] at h
  | cons c text ih =>
    cases place with
    | plain feed =>
      rw [Literal.stringFrom] at h
      split at h
      · next hfeed =>
        obtain ⟨t, rfl, ht⟩ := Literal.cons_token h
        obtain ⟨rfl, hc⟩ : feed = true ∧ c = '\n' := by simpa using hfeed
        subst hc
        exact .returnFeed (ih ht)
      · split at h
        · cases h
        · next hbreak =>
          have hc : c ≠ '\n' := by
            rintro rfl
            simp [Text.isLineBreak] at hbreak
          split at h
          · next hslash =>
            obtain ⟨t, rfl, ht⟩ := Literal.cons_token h
            obtain rfl : c = '\\' := by simpa using hslash
            exact stringPart_of_sturdy feed (ih ht)
          · split at h
            · next hend =>
              obtain rfl : c = quote := by simpa using hend
              obtain ⟨rfl, rfl⟩ : [c] = taken ∧ text = rest := by simpa using h
              exact stringPart_of_sturdy feed (.last hquote)
            · obtain ⟨t, rfl, ht⟩ := Literal.cons_token h
              exact stringPart_of_sturdy feed (.plain hc (ih ht))
    | escape =>
      obtain ⟨t, rfl, ht⟩ := Literal.cons_token h
      split at ht
      · next hx =>
        obtain rfl : c = 'x' := by simpa using hx
        exact .plain (by decide) (.plain (by decide) (ih ht))
      · split at ht
        · next hu =>
          obtain rfl : c = 'u' := by simpa using hu
          exact .plain (by decide) (.plain (by decide) (ih ht))
        · by_cases hreturn : c = '\r'
          · subst hreturn
            have hpart : StringPart (.plain true) t := ih ht
            exact hpart
          · rw [beq_false_of_ne hreturn] at ht
            by_cases hfeed : c = '\n'
            · subst hfeed
              exact .feed (ih ht)
            · exact .plain (by decide) (.plain hfeed (ih ht))
    | hex more =>
      change (if Text.isHexDigit c = true then _ else _) = _ at h
      split at h
      · next hdigit =>
        obtain ⟨t, rfl, ht⟩ := Literal.cons_token h
        have hc : c ≠ '\n' := ne_feed (Lexer.touching_not_space (Literal.touches_hex hdigit))
        cases more <;> exact .plain hc (ih ht)
      · cases h

theorem patternFrom_no_break {bracketed escaped : Bool} {text taken rest : List Char}
    (h : Literal.patternFrom bracketed escaped text = .token taken rest) :
    ∀ c ∈ taken, Text.isLineBreak c = false := by
  induction text generalizing bracketed escaped taken with
  | nil => cases h
  | cons c text ih =>
    have hgo : ∀ b e, (Literal.patternFrom b e text).cons c = .token taken rest →
        Text.isLineBreak c = false → ∀ c ∈ taken, Text.isLineBreak c = false := by
      intro b e h hc
      obtain ⟨t, rfl, ht⟩ := Literal.cons_token h
      exact List.forall_mem_cons.mpr ⟨hc, ih ht⟩
    rw [Literal.patternFrom] at h
    split at h
    · cases h
    · next hbreak =>
      have hc : Text.isLineBreak c = false := by simpa using hbreak
      repeat' split at h
      all_goals first
        | exact hgo _ _ h hc
        | (obtain ⟨rfl, -⟩ : [c] = taken ∧ text = rest := by simpa using h
           simpa using hc)

theorem regExp_no_break {text taken rest : List Char}
    (h : Literal.regExp text = .token taken rest) : ∀ c ∈ taken, Text.isLineBreak c = false := by
  rw [Literal.regExp] at h
  split at h
  · next t after hpattern =>
    obtain ⟨rfl, -⟩ : t ++ after.takeWhile Text.isIdentPart = taken ∧ _ := by simpa using h
    intro c hc
    rcases List.mem_append.mp hc with hc | hc
    · exact patternFrom_no_break hpattern c hc
    · have hspace := Lexer.identPart_not_space (Literal.all_takeWhile _ _ c hc)
      exact (Bool.or_eq_false_iff.mp hspace).2
  · next hno => exact absurd h (hno _ _)

theorem sign_no_feed : ∀ p ∈ Punctuator.table, '\n' ∉ p.spelling := by decide

theorem lexeme_sturdy {d : Dialect} {c : Char} {text taken rest : List Char} {s : Sym}
    (hc : text.head? = some c) (h : Lexer.lexeme d c text = .ok (.of s taken rest)) :
    Sturdy taken := by
  obtain ⟨rfl, hne, -⟩ := Lexer.lexeme_ok hc h
  obtain ⟨last, hlast⟩ : ∃ last, taken.getLast? = some last :=
    ⟨_, List.getLast?_eq_some_getLast hne⟩
  have hwhole : (∀ c ∈ taken, Lexer.isSpace c = false) → Sturdy taken := fun hall =>
    sturdy_of_chars (fun c hc => ne_feed (hall c hc))
      ⟨last, hlast, hall last (List.mem_of_getLast? hlast)⟩
  rw [Lexer.lexeme_eq hc] at h
  split at h
  · obtain ⟨hscan, -⟩ := Lexer.literal_ok h
    obtain ⟨-, hshape, -⟩ := Literal.number_token hscan
    refine hwhole fun c hc => ?_
    rcases hshape.chars c hc with h | rfl | rfl | rfl
    · exact Lexer.touching_not_space h
    all_goals decide
  · split at h
    · obtain ⟨w, hword, -, rfl, -⟩ := Lexer.wordLexeme_ok h
      exact hwhole fun c hc => ((Literal.wordFrom_isWord hword).chars c hc).elim
        Lexer.identPart_not_space Lexer.touching_not_space
    · split at h
      · next hstring =>
        obtain ⟨hscan, -⟩ := Lexer.literal_ok h
        obtain ⟨quote, body, hbody⟩ : ∃ quote body, taken ++ rest = quote :: body := by
          cases taken with
          | nil => exact absurd rfl hne
          | cons b taken => exact ⟨b, taken ++ rest, rfl⟩
        rw [hbody] at hscan hstring
        obtain ⟨t, rfl, ht⟩ := Literal.cons_token hscan
        have hquote : quote = '"' ∨ quote = '\'' := by simpa [Lexer.opensString] using hstring
        have hspace : Lexer.isSpace quote = false := by
          rcases hquote with rfl | rfl <;> decide
        have hpart : StringPart (.plain false) t := stringFrom_sturdy hspace ht
        exact .plain (ne_feed hspace) hpart
      · obtain ⟨p, hp, -, -, rfl, -⟩ := Lexer.signLexeme_ok h
        have hmem := (Lexer.longest_splits hp).1
        refine sturdy_of_chars (fun c hc hfeed => sign_no_feed p hmem (hfeed ▸ hc)) ⟨last, hlast, ?_⟩
        exact Lexer.sign_last p hmem last hlast

/-- What a scan reads as one token stays whole when lines are trimmed. -/
theorem Opens.sturdy {d : Dialect} {seen : SlashReader.Context} {t : Token} {slice rest : List Char}
    (h : Opens d seen t slice rest) : Sturdy slice := by
  cases h with
  | lexeme hc hl _ => exact lexeme_sturdy (Lexer.head_append hc) hl
  | @pattern body hslice _ _ _ hr =>
    subst hslice
    obtain ⟨-, -, hlast, -⟩ := Literal.regExp_token hr
    refine sturdy_of_chars (List.forall_mem_cons.mpr ⟨by decide, fun c hc => ?_⟩) ?_
    · rintro rfl
      cases regExp_no_break hr _ hc
    · cases hbody : body.getLast? with
      | none => exact ⟨'/', by rw [List.getLast?_cons, hbody]; rfl, by decide⟩
      | some b =>
        refine ⟨b, by rw [List.getLast?_cons, hbody]; rfl, ?_⟩
        rcases hlast b hbody with rfl | hpart
        · decide
        · exact Lexer.identPart_not_space hpart

/-- A cell as a scan finds it. -/
structure Cell.Firm (cell : Cell) : Prop where
  sturdy : Sturdy cell.slice
  head : ∃ c ∈ cell.slice.head?, Text.isWhiteSpace c = false
  gap : ∀ piece ∈ cell.gap, Plain piece

theorem Reads.firm {d : Dialect} {seen : SlashReader.Context} {fresh : Bool} {offset : Nat}
    {text : List Char} {lead : List Gap.Piece} {cells : List Cell} {comments : List Comment}
    (h : Reads d seen fresh offset text lead cells comments) :
    (∀ piece ∈ lead, Plain piece) ∧ ∀ cell ∈ cells, cell.Firm := by
  induction h with
  | finish line hscan => exact ⟨plain_of_scan hscan, by simp⟩
  | @token _ _ _ _ _ t slice rest _ _ _ line hscan hne hopens _ _ _ _ ih =>
    obtain ⟨c, hc⟩ : ∃ c, slice.head? = some c := ⟨_, List.head?_eq_some_head hne⟩
    have hspace := (Gap.stops_rest hscan).space c (by rw [List.head?_append, hc]; rfl)
    exact ⟨plain_of_scan hscan, List.forall_mem_cons.mpr
      ⟨⟨hopens.sturdy, ⟨c, hc, not_white hspace⟩, ih.1⟩, ih.2⟩⟩

theorem Sturdy.ends {text : List Char} (h : Sturdy text) :
    ∃ c ∈ text.getLast?, Lexer.isSpace c = false := by
  induction h with
  | last hc => exact ⟨_, rfl, hc⟩
  | plain _ htext ih | feed htext ih | returnFeed htext ih =>
    obtain ⟨c, hc, hspace⟩ := ih
    exact ⟨c, by simp [List.getLast?_cons, Option.mem_def.mp hc], hspace⟩

/-! ## What is left between tokens -/

/-- A token with its characters, what stands behind it up to the next token, and what is left of
that. -/
structure Span where
  token : Token
  slice : List Char
  gap : List Char
  left : List Char

namespace Span

/-- The tokens stand where their characters do, from a byte offset on. -/
def Placed : (offset : Nat) → List Span → Prop
  | _, [] => True
  | offset, span :: spans => span.token.start = offset
    ∧ span.token.stop = offset + Text.byteLength span.slice
    ∧ Placed (span.token.stop + Text.byteLength span.gap) spans

/-- The text before a removal. -/
def before (spans : List Span) : List Char := spans.flatMap fun span => span.slice ++ span.gap

/-- The text after a removal. -/
def after (spans : List Span) : List Char := spans.flatMap fun span => span.slice ++ span.left

/-- Something is left just where something was, and a line ends just where one did. -/
def Parts (span : Span) : Prop :=
  (span.left = [] ↔ span.gap = [])
    ∧ span.left.any Text.isLineBreak = span.gap.any Text.isLineBreak

/-- A span of a cell. -/
def Of (span : Span) (cell : Cell) : Prop :=
  span.token = cell.token ∧ span.slice = cell.slice ∧ span.gap = pieceText cell.gap

variable {d : Dialect} {seen : SlashReader.Context} {fresh : Bool} {offset : Nat}
  {text : List Char} {lead : List Gap.Piece} {cells : List Cell} {comments : List Comment}
  {spans : List Span}

theorem before_of (h : List.Forall₂ Of spans cells) : before spans = cellText cells := by
  induction h with
  | nil => rfl
  | cons hof _ ih =>
    obtain ⟨-, hslice, hgap⟩ := hof
    rw [before, List.flatMap_cons, ← before, ih, hslice, hgap]
    rfl

theorem tokens_of (h : List.Forall₂ Of spans cells) :
    spans.map Span.token = cells.map Cell.token := by
  induction h with
  | nil => rfl
  | cons hof _ ih => rw [List.map_cons, List.map_cons, hof.1, ih]

theorem placed_of (h : Reads d seen fresh offset text lead cells comments)
    (hof : List.Forall₂ Of spans cells) :
    Placed (offset + Text.byteLength (pieceText lead)) spans := by
  induction h generalizing spans with
  | finish => cases hof; trivial
  | token line _ _ _ hstart hstop _ _ ih =>
    cases hof with
    | cons hspan hmore =>
      obtain ⟨htoken, hslice, hgap⟩ := hspan
      rw [Placed, htoken, hslice, hgap, hstop, hstart]
      refine ⟨rfl, rfl, ?_⟩
      rw [← hstart, ← hstop]
      exact ih hmore

theorem pieceText_eq_nil {pieces : List Gap.Piece} (h : ∀ piece ∈ pieces, Plain piece) :
    pieceText pieces = [] ↔ pieces = [] := by
  refine ⟨fun hnil => ?_, fun hnil => by rw [hnil]; rfl⟩
  cases pieces with
  | nil => rfl
  | cons piece pieces =>
    have hpiece := h piece (by simp)
    have htext : piece.text = [] := (List.append_eq_nil_iff.mp hnil).1
    cases piece with
    | blanks text => exact absurd htext hpiece.1
    | comment block text =>
      obtain ⟨c, hc, -⟩ := hpiece.1
      rw [show text = [] from htext] at hc
      cases hc

theorem parts_of {span : Span} {cell next : Cell} {more : List Cell} (hcell : cell.Firm)
    (hnext : next.Firm) (hof : span.Of cell)
    (hthins : Thins (filled cell.slice.getLast? cell.gap (cellText (next :: more))) span.left) :
    span.Parts := by
  obtain ⟨b, hb, hspace⟩ := hcell.sturdy.ends
  obtain ⟨c, hc, hwhite⟩ := hnext.head
  have hhead : (cellText (next :: more)).head? = some c := by
    rw [cellText, List.flatMap_cons, List.append_assoc, List.head?_append, Option.mem_def.mp hc]
    rfl
  have hfilled := filled_eq_nil (not_white hspace) hhead hwhite hcell.gap
  have hbreaks := @filled_breaks (cellText (next :: more)) cell.gap (some b) hcell.gap
  have hfeed : Text.isLineBreak '\n' = true := by decide
  rw [Option.mem_def.mp hb] at hthins
  rw [Parts, hof.2.2, pieceText_eq_nil hcell.gap, ← hfilled, ← hbreaks]
  by_cases hin : '\n' ∈ filled (some b) cell.gap (cellText (next :: more))
  · have hleft := hthins.feeds hin
    refine ⟨iff_of_false (List.ne_nil_of_mem hleft) (List.ne_nil_of_mem hin), ?_⟩
    rw [List.any_eq_true.mpr ⟨_, hleft, hfeed⟩, List.any_eq_true.mpr ⟨_, hin, hfeed⟩]
  · rw [hthins.keeps hin]
    exact ⟨Iff.rfl, rfl⟩

/-- The tokens behind a token, and what is left between them. -/
theorem exists_behind (cell : Cell) {left : List Char} (hfirm : ∀ c ∈ cell :: cells, c.Firm)
    (h : TrimsBehind (filled cell.slice.getLast? cell.gap (cellText cells) ++ remains cells) left) :
    ∃ spans, List.Forall₂ Of spans (cell :: cells) ∧ cell.slice ++ left = after spans
      ∧ (∀ span ∈ spans, ∀ c ∈ span.left, Lexer.isSpace c = true)
      ∧ ∀ span ∈ spans.dropLast, span.Parts := by
  obtain ⟨hcell, hcells⟩ := List.forall_mem_cons.mp hfirm
  have hblank := @filled_blank (cellText cells) cell.gap cell.slice.getLast? hcell.gap
  induction cells generalizing cell left with
  | nil =>
    rw [remains, List.append_nil] at h
    refine ⟨[⟨cell.token, cell.slice, pieceText cell.gap, left⟩], .cons ⟨rfl, rfl, rfl⟩ .nil, ?_,
      ?_, by simp⟩
    · simp [after]
    · simpa using fun c hc => hblank c (h.subset hc)
  | cons next more ih =>
    obtain ⟨hnext, hmore⟩ := List.forall_mem_cons.mp hcells
    obtain ⟨thin, rest, rfl, hthins, hbehind⟩ := h.blanks hnext.sturdy hblank
    obtain ⟨spans, hof, hafter, hspace, hparts⟩ := ih next hcells hbehind hnext hmore
      (filled_blank _ hnext.gap)
    refine ⟨⟨cell.token, cell.slice, pieceText cell.gap, thin⟩ :: spans,
      .cons ⟨rfl, rfl, rfl⟩ hof, ?_, List.forall_mem_cons.mpr ⟨hthins.blank, hspace⟩, ?_⟩
    · rw [hafter]
      simp [after]
    · have hne : spans ≠ [] := by
        rintro rfl
        cases hof
      rw [List.dropLast_cons_of_ne_nil hne]
      exact List.forall_mem_cons.mpr ⟨parts_of hcell hnext ⟨rfl, rfl, rfl⟩ hthins, hparts⟩

/-- The tokens of a text, and what is left between them. -/
theorem exists_spans {lead out : List Char} (hfirm : ∀ cell ∈ cells, cell.Firm)
    (hlead : ∀ c ∈ lead, Lexer.isSpace c = true) (h : Trims [] (lead ++ remains cells) out) :
    ∃ blank spans, List.Forall₂ Of spans cells ∧ out = blank ++ after spans
      ∧ (∀ c ∈ blank, Lexer.isSpace c = true)
      ∧ (∀ span ∈ spans, ∀ c ∈ span.left, Lexer.isSpace c = true)
      ∧ ∀ span ∈ spans.dropLast, span.Parts := by
  cases cells with
  | nil =>
    rw [remains, List.append_nil] at h
    exact ⟨out, [], .nil, (List.append_nil out).symm, fun c hc => hlead c (h.subset hc), by simp,
      by simp⟩
  | cons cell cells =>
    obtain ⟨blank, left, rfl, hblank, hbehind⟩ :=
      h.blanks (hfirm cell (by simp)).sturdy (by simp) hlead
    obtain ⟨spans, hof, hafter, hspace, hparts⟩ := exists_behind cell hfirm hbehind
    exact ⟨blank, spans, hof, by rw [hafter], hblank, hspace, hparts⟩

end Span

/-- The tokens of a text that comments are removed from, and what is left between them. -/
theorem exists_removal {text out : String} {d : Dialect}
    (h : removeCommentsByTokens text d = .ok out) :
    ∃ lead cells eof blank spans,
      Reads d {} true 0 text.toList lead cells (scan text d).comments
      ∧ (scan text d).tokens.map Prod.fst = cells.map Cell.token ++ [eof] ∧ eof.tag = .endOfInput
      ∧ List.Forall₂ Span.Of spans cells ∧ out.toList = blank ++ Span.after spans
      ∧ (∀ c ∈ blank, Lexer.isSpace c = true)
      ∧ (∀ span ∈ spans, ∀ c ∈ span.left, Lexer.isSpace c = true)
      ∧ ∀ span ∈ spans.dropLast, span.Parts := by
  have hout : (scan text d).failure = none
      ∧ out = String.ofList (without (scan text d).comments text.toList) := by
    rw [removeCommentsByTokens] at h
    cases hfailure : (scan text d).failure with
    | none => simpa [hfailure, eq_comm] using h
    | some problem => simp [hfailure] at h
  obtain ⟨hok, rfl⟩ := hout
  obtain ⟨lead, cells, eof, hreads, htokens, heof⟩ := scan_reads hok
  obtain ⟨hlead, hcells⟩ := hreads.firm
  have htrims := trims_without (scan text d).comments text.toList
  rw [hreads.cut] at htrims
  obtain ⟨blank, spans, hof, hafter, hrest⟩ :=
    Span.exists_spans hcells (filled_blank none hlead) htrims
  exact ⟨lead, cells, eof, blank, spans, hreads, htokens, heof, hof,
    (String.toList_ofList).trans hafter, hrest⟩

/-- Comment removal leaves the tokens that its scan finds as they are, each at its place with its
own characters, and blanks between them: none just where there was nothing, and a line break just
where there was one, be it inside a comment. -/
theorem removeCommentsByTokens_spans {text out : String} {d : Dialect}
    (h : removeCommentsByTokens text d = .ok out) :
    ∃ (lead blank : List Char) (spans : List Span) (eof : Token),
      (scan text d).tokens.map Prod.fst = spans.map Span.token ++ [eof] ∧ eof.tag = .endOfInput
      ∧ text.toList = lead ++ Span.before spans ∧ Span.Placed (Text.byteLength lead) spans
      ∧ out.toList = blank ++ Span.after spans ∧ (∀ c ∈ blank, Lexer.isSpace c = true)
      ∧ (∀ span ∈ spans, ∀ c ∈ span.left, Lexer.isSpace c = true)
      ∧ ∀ span ∈ spans.dropLast, span.Parts := by
  obtain ⟨lead, cells, eof, blank, spans, hreads, htokens, heof, hof, hrest⟩ := exists_removal h
  refine ⟨pieceText lead, blank, spans, eof, ?_, heof, ?_, ?_, hrest⟩
  · rw [htokens, Span.tokens_of hof]
  · rw [hreads.text_eq, Span.before_of hof]
  · simpa using Span.placed_of hreads hof

/-- A continued string, a comment that ends a line, and a regular expression. -/
theorem removeCommentsByTokens_spans_string :
    removeCommentsByTokens "x = 'a \\\n b' /* c\n*/ + /d/ // e" .v13
        = .ok "x = 'a \\\n b'\n + /d/"
      ∧ ∃ blank spans, "x = 'a \\\n b'\n + /d/".toList = blank ++ Span.after spans
        ∧ spans.length = 5 ∧ ∀ span ∈ spans.dropLast, span.Parts := by
  have h : removeCommentsByTokens "x = 'a \\\n b' /* c\n*/ + /d/ // e" .v13
      = .ok "x = 'a \\\n b'\n + /d/" := by rfl
  obtain ⟨-, blank, spans, eof, htokens, -, -, -, hout, -, -, hparts⟩ :=
    removeCommentsByTokens_spans h
  have hlength :
      ((scan "x = 'a \\\n b' /* c\n*/ + /d/ // e" .v13).tokens.map Prod.fst).length = 6 := by rfl
  rw [htokens] at hlength
  exact ⟨h, blank, spans, hout, by simpa using hlength, hparts⟩

end CommentRemoval
end ScriptPress
