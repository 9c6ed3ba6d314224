import ScriptPress.Proofs.Likeness.Script
import ScriptPress.Proofs.Removal.Serving

/-! # Scripts without their comments

Where no slash of a script is told wrong by the token before it, comment removal leaves a script of
the same outline without comments.
-/
namespace ScriptPress

namespace CommentRemoval
open SlashReader (Context byContext)
open SlashReader.Context (Along Fits)
variable {d : Dialect} {seen c : Context} {t : Token} {slice rest more : List Char}

/-! ## Arrows

No script has a `-->` that opens no comment, save behind a token on the same line. A step that a
line ended in front of ends no operand, and the angle would have to stand behind one.
-/

/-- A token that begins with a dash or an angle is the longest sign there. -/
theorem Opens.sign {b : Char} (h : Opens d seen t slice rest) (htext : slice ++ rest = b :: more)
    (hb : b = '-' ∨ b = '>') :
    ∃ p, Punctuator.longest? (b :: more) = some p ∧ t.tag = p.tag ∧ slice = p.spelling := by
  cases h with
  | @lexeme a ha hl _ =>
    have hhead : (slice ++ rest).head? = some a := Lexer.head_append ha
    obtain rfl : a = b := by simpa [htext] using hhead.symm
    rw [htext, Lexer.lexeme_eq rfl] at hl
    obtain ⟨hn, hw, hs⟩ : Lexer.opensNumber (a :: more) = false
        ∧ Lexer.opensWord (a :: more) = false ∧ Lexer.opensString (a :: more) = false := by
      rcases hb with rfl | rfl <;> exact ⟨rfl, rfl, rfl⟩
    simp only [hn, hw, hs, Bool.false_eq_true, if_false] at hl
    obtain ⟨p, hp, -, hsym, hslice, -⟩ := Lexer.signLexeme_ok hl
    exact ⟨p, hp, congrArg Sym.tag hsym, hslice⟩
  | pattern hslice =>
    rw [hslice] at htext
    obtain ⟨rfl, -⟩ := List.cons.inj htext
    simp at hb

theorem angle_follows : ∀ p ∈ Punctuator.table, p.spelling.head? = some '>' →
    p.tag = .assign ∨ p.tag = .relation ∨ p.tag = .shift := by
  decide

/-- A token that begins with an angle stands behind an operand. -/
theorem Opens.angle (h : Opens d seen t slice rest) (htext : slice ++ rest = '>' :: more) :
    t.followsOperand = true := by
  obtain ⟨p, hp, htag, -⟩ := h.sign htext (.inr rfl)
  obtain ⟨hmem, hsplit⟩ := Lexer.longest_splits hp
  have hhead : p.spelling.head? = some '>' := by
    cases hspelling : p.spelling with
    | nil => exact absurd hspelling (Lexer.sign_opens p hmem).1
    | cons b spelling =>
      rw [hspelling] at hsplit
      exact congrArg some (List.cons.inj hsplit).1.symm
  obtain h | h | h := angle_follows p hmem hhead <;> simp [Token.followsOperand, htag, h]

/-- Behind the token of an arrow that opens no comment goes on the arrow's angle. -/
theorem Opens.arrow (h : Opens d seen t slice rest) (harrow : "-->".toList <+: slice ++ rest) :
    t.tag = .decrement ∧ ∃ more, rest = '>' :: more := by
  obtain ⟨more, hmore⟩ := harrow
  obtain ⟨p, hp, htag, hslice⟩ := h.sign hmore.symm (.inl rfl)
  obtain rfl : p = ⟨"--".toList, .decrement, none⟩ := Option.some.inj (hp.symm.trans rfl)
  refine ⟨htag, more, ?_⟩
  rw [hslice] at hmore
  have hangle : "--".toList ++ '>' :: more = "--".toList ++ rest := hmore
  exact (List.append_cancel_left hangle).symm

theorem Reads.bare_of_fits {fresh : Bool} {offset : Nat} {text : List Char} {lead : List Gap.Piece}
    {cells : List Cell} {comments : List Comment}
    (h : Reads d seen fresh offset text lead cells comments)
    (hfits : Along Fits c (cells.map Cell.token)) : Bare cells := by
  induction h generalizing c with
  | finish => trivial
  | @token _ _ _ _ _ t slice rest gap cells _ _ _ _ hopens _ _ _ hmore ih =>
    refine ⟨fun hbreak harrow => ?_, ih hfits.2⟩
    rw [← hmore.text_eq] at harrow
    obtain ⟨htag, more, rfl⟩ := hopens.arrow harrow
    have hstops : Gap.Stops false ('>' :: more) := ⟨by rintro c ⟨rfl⟩; rfl, rfl, rfl⟩
    cases hmore with
    | finish _ hscan => cases hscan.symm.trans hstops.scanFrom
    | token _ hscan _ hangle =>
      have hrest := congrArg Gap.rest (hscan.symm.trans hstops.scanFrom)
      have hended := hfits.2.1.operator (hangle.angle hrest)
      simp only [Context.ended, Context.note_previous, Option.any_some, Token.endsOperand, htag,
        Bool.not_eq_true'] at hended
      exact Bool.false_ne_true (hended.symm.trans hbreak)

end CommentRemoval

namespace Script
open CommentRemoval (scan exists_removal)
open SlashReader (Context)
variable {settings : ReadSettings} {text : String} {script : Script}

/-- A scan comes to the tokens and the comments of a script just where none of its slashes is told
wrong by the token before it. Where none is, comment removal leaves a script of the same outline
without comments. -/
theorem read_removeCommentsByTokens (h : read settings text = .ok script) :
    (script.ScannedAs settings.keepComments (scan text settings.dialect)
        ↔ Context.misled settings.dialect {} script.tokens = false)
      ∧ (Context.misled settings.dialect {} script.tokens = false → ∃ out again,
        removeCommentsByTokens text settings.dialect = .ok out ∧ read settings out = .ok again
          ∧ again.tree.outline = script.tree.outline ∧ again.comments = []) := by
  refine ⟨scannedAs_iff h, fun hright => ?_⟩
  obtain ⟨plain, hplain, houtline, hunlined, -⟩ := read_again h ⟨"", 1, settings.dialect, true⟩ rfl
  rw [← Context.misled_alike (.refl {}) (syms_of_unlined hunlined)] at hright
  obtain ⟨hok, ⟨last, -, hscan⟩, -⟩ := scan_read hplain rfl rfl hright
  obtain ⟨out, hout⟩ : ∃ out, removeCommentsByTokens text settings.dialect = .ok out := by
    rw [removeCommentsByTokens]
    simp only [hok]
    exact ⟨_, rfl⟩
  obtain ⟨lead, cells, eof, blank, spans, hreads, htokens, -, hof, hleft, hlead, hblank,
    hparts⟩ := exists_removal hout
  obtain ⟨hcells, -⟩ := List.append_inj' (hscan.symm.trans htokens) rfl
  have hbare := hreads.bare_of_fits (hcells ▸ (read_yields hplain).1)
  have hserves : ∀ last : Token, last.sym = ⟨.endOfInput, none, none⟩ →
      ∃ ts, (opening settings out).lexer.Yields ts
        ∧ Lexer.Matched false (plain.tokens ++ [last]) ts := fun last hlast => by
    rw [hcells]
    exact hreads.serves (opening settings out).lexer hof hbare hblank hparts rfl rfl hleft hlead
      (fun hfresh => by cases hfresh) hlast
  obtain ⟨again, hagain, hsame, hnone⟩ := read_mirrors hplain settings out rfl hserves
  exact ⟨out, again, hout, hagain, hsame.trans houtline, hnone⟩

/-- A slash behind parentheses, and a regular expression between them. -/
theorem read_removeCommentsByTokens_parentheses : ∃ script out again,
    read { keepComments := true } "a(/b/) / c // d" = .ok script
      ∧ removeCommentsByTokens "a(/b/) / c // d" .latest = .ok out
      ∧ read { keepComments := true } out = .ok again
      ∧ again.tree.outline = script.tree.outline ∧ again.comments = [] := by
  have hread : ((read { keepComments := true } "a(/b/) / c // d").toOption.map fun script =>
      Context.misled .latest {} script.tokens) = some false := by
    decide +kernel
  obtain ⟨script, hok, hright⟩ := exists_read hread
  obtain ⟨out, again, hagain⟩ := (read_removeCommentsByTokens hok).2 hright
  exact ⟨script, out, again, hok, hagain⟩

/-- Behind a brace, a slash that divides is taken for the beginning of a regular expression. -/
theorem removeCommentsByTokens_misled : (∃ script, read {} "x=\x7b\x7d/1" = .ok script)
    ∧ removeCommentsByTokens "x=\x7b\x7d/1" .latest = .error ⟨1, .unterminatedRegExp⟩ := by
  have hread : ((read {} "x=\x7b\x7d/1").toOption.map fun _ => ()) = some () := by decide +kernel
  obtain ⟨script, hok, -⟩ := exists_read hread
  exact ⟨⟨script, hok⟩, by rfl⟩

end Script
end ScriptPress
