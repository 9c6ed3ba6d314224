import ScriptPress.Proofs.Lexical.Moving
import ScriptPress.Proofs.Progress.Lexer
import ScriptPress.Proofs.Removal.Tokens
import ScriptPress.Proofs.Slashes.Serving

/-! # The tokens of the text that is left

The text that comments are removed from yields the tokens of a scan again, without comments in front
of them. A line ends in front of a token just where one did before, the first token and the end of
the text apart.
-/
namespace ScriptPress

/-- A token of another text that is the same, behind a line break just where the first one is. At
the end of a text, a line break may be gone. -/
structure Token.Like (t t' : Token) : Prop where
  sym : t'.sym = t.sym
  lined : t.tag ≠ .endOfInput → t'.newlineBefore = t.newlineBefore

namespace Lexer
variable {lx lx' : Lexer} {t : Token} {cs : List Comment} {ts : List (Token × List Comment)}

/-- Tokens of another text, like those of a first one, with no comments in front of them. The first
of them may have lost the line break in front of it. -/
def Matched : (lined : Bool) → (ts : List Token) → (ts' : List (Token × List Comment)) → Prop
  | _, [], [] => True
  | lined, t :: ts, q :: ts' =>
    q.1.sym = t.sym ∧ (lined = true → t.Like q.1) ∧ q.2 = [] ∧ Matched true ts ts'
  | _, _, _ => False

theorem Matched.syms {lined : Bool} {ts : List Token} {ts' : List (Token × List Comment)}
    (h : Matched lined ts ts') : (ts'.map Prod.fst).map Token.sym = ts.map Token.sym := by
  induction ts generalizing lined ts' with
  | nil =>
    cases ts' with
    | nil => rfl
    | cons => exact h.elim
  | cons t ts ih =>
    cases ts' with
    | nil => exact h.elim
    | cons q ts' => exact congrArg₂ List.cons h.1 (ih h.2.2.2)

theorem Matched.comments {lined : Bool} {ts : List Token} {ts' : List (Token × List Comment)}
    (h : Matched lined ts ts') : ts'.flatMap Prod.snd = [] := by
  induction ts generalizing lined ts' with
  | nil =>
    cases ts' with
    | nil => rfl
    | cons => exact h.elim
  | cons t ts ih =>
    cases ts' with
    | nil => exact h.elim
    | cons q ts' => rw [List.flatMap_cons, h.2.2.1, ih h.2.2.2, List.append_nil]

theorem Yields.serves (h : lx.Yields ts) (htag : t.tag ≠ .endOfInput) :
    Serves lx t cs ((t, cs) :: ts) := by
  obtain ⟨next, lx', hnext, hserves⟩ := h
  exact .take htag hnext hserves

/-- The end of the input shows no more than that. -/
theorem sym_of_end (h : lx.next = (.ok t, lx')) (htag : t.tag = .endOfInput) :
    t.sym = ⟨.endOfInput, none, none⟩ := by
  rw [Lexer.next] at h
  dsimp only at h
  split at h
  · cases h
  · split at h
    · obtain ⟨rfl, -⟩ := Prod.mk.inj h |>.imp_left Except.ok.inj
      rfl
    · next c text hrest =>
      split at h
      · cases h
      · next l hl =>
        obtain ⟨rfl, -⟩ := Prod.mk.inj h |>.imp_left Except.ok.inj
        rw [hrest] at hl
        exact absurd htag (lexeme_kind (s := l.sym) rfl hl).tags.2.1

theorem Serves.last (h : Serves lx t cs ts)
    (ht : t.tag = .endOfInput → t.sym = ⟨.endOfInput, none, none⟩) :
    ∀ p ∈ ts, p.1.tag = .endOfInput → p.1.sym = ⟨.endOfInput, none, none⟩ := by
  induction h with
  | finish => simpa using ht
  | take _ hnext _ ih => exact List.forall_mem_cons.mpr ⟨ht, ih (sym_of_end hnext)⟩
  | again _ hrescan _ ih => exact ih fun htag => by simp [rescan_tag hrescan] at htag

theorem Yields.last (h : lx.Yields ts) :
    ∀ p ∈ ts, p.1.tag = .endOfInput → p.1.sym = ⟨.endOfInput, none, none⟩ := by
  obtain ⟨t, lx', hnext, hserves⟩ := h
  exact hserves.last (sym_of_end hnext)

end Lexer

namespace CommentRemoval
open Lexer (Matched)
variable {d : Dialect} {seen : SlashReader.Context} {t : Token}

/-- A slash that stands before a pattern is read again. -/
theorem rescan_ok {lx : Lexer} {slash : Token} {body rest : List Char}
    (hd : lx.dialect.hasRegExpLiterals = true)
    (h : Literal.regExp (slash.reopen lx.rest) = .token body rest) :
    ∃ t lx', lx.rescan slash = (.ok t, lx') ∧ t.sym = .pattern ('/' :: body)
      ∧ t.newlineBefore = slash.newlineBefore ∧ lx'.dialect = lx.dialect
      ∧ lx'.comments = lx.comments ∧ lx'.rest = rest ∧ lx'.fresh = lx.fresh := by
  have hreopen : (if slash.tag == .assign then '=' :: lx.rest else lx.rest)
      = slash.reopen lx.rest := rfl
  simp only [Lexer.rescan, hd, hreopen, h]
  exact ⟨_, _, rfl, rfl, rfl, rfl, rfl, rfl, rfl⟩

/-- Blanks in front of a text that is no gap are a gap without comments. -/
theorem scanFrom_blanks {fresh : Bool} {blank text : List Char}
    (hblank : ∀ c ∈ blank, Lexer.isSpace c = true)
    (h : Gap.Stops (fresh || blank.any Text.isLineBreak) text) :
    ∃ pieces, Gap.scanFrom (.between fresh) (blank ++ text) = ⟨pieces, none, text⟩
      ∧ (∀ keep, Gap.kept keep pieces = []) ∧ Gap.breaks pieces = blank.any Text.isLineBreak := by
  have hpieces : ∃ pieces, Gap.scanFrom (.between fresh) (blank ++ text) = ⟨pieces, none, text⟩
      ∧ ∀ keep, Gap.kept keep pieces = [] := by
    induction blank generalizing fresh with
    | nil => exact ⟨[], Gap.Stops.scanFrom (by simpa using h), by simp [Gap.kept]⟩
    | cons c blank ih =>
      obtain ⟨hc, hblank⟩ := List.forall_mem_cons.mp hblank
      rw [List.any_cons, ← Bool.or_assoc] at h
      obtain ⟨pieces, hscan, hkept⟩ := ih hblank h
      rw [List.cons_append, Gap.scanFrom_space hc, hscan]
      refine ⟨(Gap.consBlank c ⟨pieces, none, text⟩).pieces, ?_, fun keep =>
        (Gap.kept_consBlank keep c _).trans (hkept keep)⟩
      unfold Gap.consBlank
      split <;> rfl
  obtain ⟨pieces, hscan, hkept⟩ := hpieces
  refine ⟨pieces, hscan, hkept, ?_⟩
  rw [← List.append_cancel_right (pieceText_scanFrom hscan), pieceText, List.any_flatMap]
  rfl

theorem heard_eq_nil {lx : Lexer} : lx.heard = [] ↔ lx.comments = [] := by
  rw [Lexer.heard, List.map_eq_nil_iff]

theorem Opens.tag {slice rest : List Char} (h : Opens d seen t slice rest) :
    t.tag ≠ .endOfInput := by
  cases h with
  | lexeme hc hl _ => exact (Lexer.lexeme_kind (Lexer.head_append hc) hl).tags.2.1
  | pattern _ hsym _ _ _ =>
    have htag : t.tag = .regExp := congrArg Sym.tag hsym
    simp [htag]

/-- A token of a scan is served again behind blanks, before a text that follows the old one. -/
theorem Opens.serves {slice rest rest' : List Char} {pieces : List Gap.Piece} {lx : Lexer}
    (h : Opens d seen t slice rest) (hd : lx.dialect = d) (hnone : lx.comments = [])
    (hf : Lexer.Follows rest rest')
    (hscan : Gap.scanFrom (.between lx.fresh) lx.rest = ⟨pieces, none, slice ++ rest'⟩)
    (hkept : ∀ keep, Gap.kept keep pieces = []) :
    ∃ (t' : Token) (lx' : Lexer), t'.sym = t.sym ∧ t'.newlineBefore = Gap.breaks pieces
      ∧ (lx'.dialect = d ∧ lx'.comments = [] ∧ lx'.rest = rest' ∧ lx'.fresh = false)
      ∧ ∀ ts, lx'.Yields ts → lx.Yields ((t', []) :: ts) := by
  subst hd
  have hend := h.tag
  have hheard : ∀ lx' : Lexer, lx'.heard = lx.heard ++ Gap.kept lx.keepComments pieces →
      lx'.comments = [] := fun lx' h => by
    rw [hkept, heard_eq_nil.mpr hnone, List.append_nil] at h
    exact heard_eq_nil.mp h
  cases h with
  | lexeme hc hl _ =>
    obtain ⟨t', lx', hnext, hsym, hbreaks, hrest, hfresh, hh, hlike⟩ := Lexer.next_token hscan
      (Lexer.head_append hc) (Lexer.lexeme_moves (Lexer.head_append hc) hl hf)
    have htag : t'.tag ≠ .endOfInput := fun htag => hend ((Token.tag_of_sym hsym).symm.trans htag)
    refine ⟨t', { lx' with comments := [] }, hsym, hbreaks, ⟨hlike.1, rfl, hrest, hfresh⟩,
      fun ts hts => ⟨t', lx', hnext, ?_⟩⟩
    rw [hheard lx' hh]
    exact hts.serves htag
  | @pattern body hslice hsym hopens hregExp hr =>
    subst hslice
    obtain ⟨s, taken, after, hl, -, hslash⟩ := Lexer.lexeme_slash lx.dialect (body ++ rest')
    obtain ⟨slash, lx₁, hnext, hs, hbreaks, hrest, hfresh, hh, hlike⟩ :=
      Lexer.next_token hscan rfl hl
    obtain ⟨hslash, hreopen⟩ := hslash slash hs
    obtain ⟨t', lx', hrescan, hsym', hbreaks', hdialect, hcomments, hrest', hfresh'⟩ :=
      @rescan_ok { lx₁ with comments := [] } slash body rest' (hlike.1 ▸ hregExp)
        (by rw [hrest, hreopen]; exact Lexer.regExp_moves hr hf)
    have htag : t'.tag ≠ .endOfInput := by simp [Lexer.rescan_tag hrescan]
    refine ⟨t', lx', hsym'.trans hsym.symm, hbreaks'.trans hbreaks,
      ⟨hdialect.trans hlike.1, hcomments, hrest', hfresh'.trans hfresh⟩,
      fun ts hts => ⟨slash, lx₁, hnext, ?_⟩⟩
    rw [hheard lx₁ hh]
    exact .again hslash hrescan (hts.serves htag)

theorem parts_tail {span : Span} {spans : List Span}
    (h : ∀ s ∈ (span :: spans).dropLast, s.Parts) : ∀ s ∈ spans.dropLast, s.Parts := by
  cases spans with
  | nil => simp
  | cons next spans => exact fun s hs => h s (List.mem_cons_of_mem _ hs)

/-- What is left behind a token follows what stood there. -/
theorem follows_spans {span : Span} {spans : List Span}
    (hblank : ∀ s ∈ span :: spans, ∀ c ∈ s.left, Lexer.isSpace c = true)
    (hparts : ∀ s ∈ (span :: spans).dropLast, s.Parts) :
    Lexer.Follows (span.gap ++ Span.before spans) (span.left ++ Span.after spans) := by
  induction spans generalizing span with
  | nil =>
    refine ⟨[], _, span.left ++ Span.after [], rfl, rfl, fun c hc => ?_⟩
    have hin : c ∈ span.left := by
      rw [show Span.after [] = [] from rfl, List.append_nil] at hc
      exact List.mem_of_mem_head? hc
    rw [Lexer.isBar, hblank span (by simp) c hin, Bool.true_or]
  | cons next spans ih =>
    cases hleft : span.left with
    | nil =>
      have hgap : span.gap = [] := (hparts span (by simp)).1.mp hleft
      have hmore := ih (fun s hs => hblank s (by simp [hs])) (parts_tail hparts)
      rw [hgap, List.nil_append, List.nil_append]
      have happend := hmore.append next.slice
      rwa [← List.append_assoc, ← List.append_assoc] at happend
    | cons c left =>
      have hspace : Lexer.isSpace c = true := hblank span (by simp) c (by simp [hleft])
      refine ⟨[], _, c :: left ++ Span.after (next :: spans), rfl, rfl, fun b hb => ?_⟩
      obtain rfl : c = b := by simpa using hb
      rw [Lexer.isBar, hspace, Bool.true_or]

/-- No token in front of which a line ended begins with `-->`. -/
def Bare : List Cell → Prop
  | [] => True
  | cell :: cells => (cell.token.newlineBefore = true
      → ¬ "-->".toList <+: cell.slice ++ (pieceText cell.gap ++ cellText cells)) ∧ Bare cells

/-- In front of another token, what is left of a gap ends a line just where the gap did. -/
theorem breaks_left {span : Span} {spans : List Span} {cell : Cell} {cells : List Cell}
    (hspan : span.Of cell) (hof : List.Forall₂ Span.Of spans cells)
    (hparts : ∀ s ∈ (span :: spans).dropLast, s.Parts) (hcells : cells ≠ []) :
    span.left.any Text.isLineBreak = Gap.breaks cell.gap := by
  have hspans : spans ≠ [] := by
    rintro rfl
    cases hof
    exact hcells rfl
  have hbreaks := (hparts span (by simp [List.dropLast_cons_of_ne_nil hspans])).2
  rwa [hspan.2.2, pieceText, List.any_flatMap] at hbreaks

/-- Blanks at the end of a text leave the end of the input. -/
theorem yields_end {lx : Lexer} {lined : Bool} {last : Token} (hnone : lx.comments = [])
    (hblank : ∀ c ∈ lx.rest, Lexer.isSpace c = true)
    (hlast : last.sym = ⟨.endOfInput, none, none⟩) :
    ∃ ts, lx.Yields ts ∧ Matched lined [last] ts := by
  have hstops : Gap.Stops (lx.fresh || lx.rest.any Text.isLineBreak) [] :=
    ⟨by simp, by cases lx.fresh || lx.rest.any Text.isLineBreak <;> rfl, rfl⟩
  obtain ⟨pieces, hscan, hkept, -⟩ := scanFrom_blanks hblank hstops
  rw [List.append_nil] at hscan
  obtain ⟨t, lx', hnext, htag, hheard, -⟩ := Lexer.next_finish hscan
  have hsym : t.sym = last.sym := (Lexer.sym_of_end hnext htag).trans hlast.symm
  have hend : last.tag = .endOfInput := congrArg Sym.tag hlast
  rw [hkept, heard_eq_nil.mpr hnone, List.append_nil, heard_eq_nil] at hheard
  exact ⟨_, ⟨t, lx', hnext, .finish htag⟩, hsym, fun _ => ⟨hsym, fun h => absurd hend h⟩, hheard,
    trivial⟩

/-- Blanks for the gaps of a text leave tokens like those of the text. A line may end in front of
the first token where none did before. -/
theorem Reads.serves {fresh : Bool} {offset : Nat} {text left : List Char}
    {lead : List Gap.Piece} {cells : List Cell} {comments : List Comment} {spans : List Span}
    {last : Token} (lx : Lexer) (h : Reads d seen fresh offset text lead cells comments)
    (hof : List.Forall₂ Span.Of spans cells) (hbare : Bare cells)
    (hblank : ∀ s ∈ spans, ∀ c ∈ s.left, Lexer.isSpace c = true)
    (hparts : ∀ s ∈ spans.dropLast, s.Parts) (hd : lx.dialect = d) (hnone : lx.comments = [])
    (hrest : lx.rest = left ++ Span.after spans) (hleft : ∀ c ∈ left, Lexer.isSpace c = true)
    (hbegun : fresh = false → cells ≠ [] →
      lx.fresh = false ∧ left.any Text.isLineBreak = Gap.breaks lead)
    (hlast : last.sym = ⟨.endOfInput, none, none⟩) :
    ∃ ts, lx.Yields ts ∧ Matched (!fresh) (cells.map Cell.token ++ [last]) ts := by
  induction h generalizing spans left lx with
  | finish line hscan =>
    cases hof
    rw [show Span.after [] = [] from rfl, List.append_nil] at hrest
    exact yields_end hnone (hrest ▸ hleft) hlast
  | @token seen fresh offset text lead t slice rest gap cells comments line hscan hne hopens _ _
      hbreaks hmore ih =>
    cases hof with
    | @cons span _ spans _ hspan hof =>
    have hbreaks_left := breaks_left hspan hof hparts
    obtain ⟨-, hslice, hgap⟩ := hspan
    dsimp only at hslice hgap
    obtain ⟨hbarrow, hbare⟩ := hbare
    have hrest_eq := hmore.text_eq
    have hfollows : Lexer.Follows rest (span.left ++ Span.after spans) := by
      have := follows_spans hblank hparts
      rwa [hgap, Span.before_of hof, ← hrest_eq] at this
    have hafter : Span.after (span :: spans) = slice ++ (span.left ++ Span.after spans) := by
      rw [Span.after, List.flatMap_cons, hslice, List.append_assoc]
      rfl
    have hstops : Gap.Stops (lx.fresh || left.any Text.isLineBreak)
        (slice ++ (span.left ++ Span.after spans)) := by
      refine (Gap.stops_rest hscan).moves hne hfollows fun hnew => ?_
      -- A line that begins only now, where a comment was, must not begin with an arrow.
      cases fresh with
      | true => exact .inl rfl
      | false =>
        obtain ⟨hold, hsame⟩ := hbegun rfl (by simp)
        rw [hold, Bool.false_or, hsame] at hnew
        rw [hrest_eq]
        exact .inr (hbarrow (hbreaks.trans hnew))
    obtain ⟨pieces, hscan', hkept, hpieces⟩ := scanFrom_blanks hleft hstops
    rw [← hafter, ← hrest] at hscan'
    obtain ⟨t', lx', hsym, hbreaks', ⟨hd', hnone', hrest', hfresh'⟩, hyields⟩ :=
      hopens.serves hd hnone hfollows (hafter ▸ hscan') hkept
    obtain ⟨ts, hts, hmatched⟩ := ih lx' hof hbare
      (fun s hs => hblank s (List.mem_cons_of_mem _ hs)) (parts_tail hparts) hd' hnone' hrest'
      (hblank span (by simp)) fun _ hcells => ⟨hfresh', hbreaks_left hcells⟩
    refine ⟨_, hyields ts hts, hsym, fun hlined => ⟨hsym, fun _ => ?_⟩, rfl, hmatched⟩
    rw [hbreaks', hpieces, (hbegun (by simpa using hlined) (by simp)).2]
    exact hbreaks.symm

end CommentRemoval
end ScriptPress
