import ScriptPress.Proofs.Insertion.Text
import ScriptPress.Proofs.Lexical.LineCount
import ScriptPress.CommentRemoval

/-! # The progress of the lexer

Every token but the last one takes a character, so that what is left of a text gets shorter with
each token. A slash that is read again gives back what stands behind it, so that what is left is
counted from there for as long as it can be read again.
-/
namespace ScriptPress

/-- How much can still be read when a token stands before the rest of a text. A slash stands before
all that it can be read again with. -/
def Token.left (t : Token) (rest : List Char) : Nat :=
  (if t.isSlash then t.reopen rest else rest).length + if t.tag = .endOfInput then 0 else 1

namespace Token
variable {t : Token} {rest : List Char}

theorem left_end (h : t.tag = .endOfInput) : t.left rest = rest.length := by
  simp [left, isSlash, h]

theorem left_plain (t : Token) (hslash : t.isSlash = false) (h : t.tag ≠ .endOfInput) :
    t.left rest = rest.length + 1 := by
  simp [left, hslash, h]

theorem length_le_reopen (t : Token) (rest : List Char) :
    rest.length ≤ (t.reopen rest).length := by
  rw [reopen]
  split
  · exact Nat.le_succ _
  · exact le_rfl

theorem length_le_left (t : Token) (rest : List Char) : rest.length ≤ t.left rest := by
  have hreopen := t.length_le_reopen rest
  rw [left]
  split <;> omega

theorem length_lt_left (h : t.tag ≠ .endOfInput) : rest.length < t.left rest := by
  have hreopen := t.length_le_reopen rest
  rw [left, if_neg h]
  split <;> omega

theorem isSlash_ne_end (h : t.isSlash = true) : t.tag ≠ .endOfInput := by
  intro htag
  simp [isSlash, htag] at h

end Token

namespace Lexer
variable {lx lx' : Lexer} {t slash : Token}

/-- The next token takes what is left of it from the text. -/
theorem next_left (h : lx.next = (.ok t, lx')) : t.left lx'.rest ≤ lx.rest.length := by
  obtain ⟨gap, rfl, -, -, hcase⟩ := next_inv h
  have hgap := Gap.scanFrom_length (.between lx.fresh) lx.rest
  obtain ⟨hrest, htag, -, rfl⟩ | ⟨c, l, hc, hl, hof, -, rfl⟩ := hcase
  · rw [Token.left_end htag]
    exact hgap
  · rw [hof] at hl
    obtain ⟨hsplit, hne, -⟩ := lexeme_ok hc hl
    have hlength := congrArg List.length hsplit
    have hpos := List.length_pos_iff.mpr hne
    rw [List.length_append] at hlength
    have htag : t.tag ≠ .endOfInput := (lexeme_kind hc hl).tags.2.1
    change t.left l.rest ≤ _
    rw [Token.left, if_neg htag]
    split
    · next hslash =>
      have hslice := congrArg List.length (slash_slice (spells_of_lexeme hc hl) hslash)
      rw [List.length_append, List.length_cons] at hslice
      omega
    · omega

/-- A slash that is read again leaves no more than it did. -/
theorem rescan_left (h : lx.rescan slash = (.ok t, lx')) (hslash : slash.isSlash = true) :
    t.left lx'.rest ≤ slash.left lx.rest := by
  obtain ⟨taken, hsplit, htag, -⟩ := rescan_inv h
  rw [t.left_plain (by simp [Token.isSlash, htag]) (by simp [htag]), Token.left, if_pos hslash,
    if_neg (Token.isSlash_ne_end hslash), hsplit, List.length_append]
  omega

/-- A call that reads a token stops behind the token before it, which may have been read again. -/
theorem Calls.next_stop {text : String} {d : Dialect} {line : Nat} {keep : Bool}
    {tokens : List Token} (h : Calls (start text d line keep) tokens lx)
    (hnext : lx.next = (.ok t, lx')) (ht : t.tag ≠ .endOfInput) : lastStop tokens < t.stop := by
  have hspans := next_spans hnext
  have hgap := hspans.gap
  rw [h.accounted.position] at hgap
  exact hgap.trans_lt (hspans.token ht).1

end Lexer

/-! ## Readings without a grammar -/

namespace TokenStream
variable {σ : Type} {reader : SlashReader σ} {seen : σ} {lx lx' : Lexer} {t : Token}

theorem readToken_left (h : readToken reader seen lx = (.ok t, lx')) :
    t.left lx'.rest ≤ lx.rest.length := by
  rw [readToken] at h
  split at h
  · cases h
  · next slash place hnext =>
    have hleft := Lexer.next_left hnext
    split at h
    · next hagain =>
      exact (Lexer.rescan_left h (Bool.and_eq_true_iff.mp hagain).1).trans hleft
    · obtain ⟨ht, rfl⟩ := (Prod.mk.inj h).imp_left Except.ok.inj
      exact ht ▸ hleft

/-- A stream that was read to a problem or to the end of its text. -/
def Complete (stream : TokenStream) : Prop :=
  (∃ d, stream.failure = some d)
    ∨ ∃ earlier last, stream.tokens = earlier ++ [last] ∧ last.1.tag = .endOfInput

theorem Complete.cons {stream : TokenStream} (h : stream.Complete) (token : Token × List Comment) :
    (stream.cons token).Complete := by
  obtain h | ⟨earlier, last, htokens, hlast⟩ := h
  · exact .inl h
  · exact .inr ⟨token :: earlier, last, congrArg (token :: ·) htokens, hlast⟩

/-- A stream with more tokens allowed than there are characters is complete, and allowing it more
of them makes no difference. -/
theorem readFrom_complete {fuel fuel' : Nat} (h : lx.rest.length < fuel)
    (h' : lx.rest.length < fuel') : (readFrom reader fuel seen lx).Complete
      ∧ readFrom reader fuel' seen lx = readFrom reader fuel seen lx := by
  induction fuel generalizing fuel' seen lx with
  | zero => omega
  | succ fuel ih =>
    obtain ⟨fuel', rfl⟩ : ∃ k, fuel' = k + 1 := ⟨fuel' - 1, by omega⟩
    rw [readFrom, readFrom]
    split
    · exact ⟨.inl ⟨_, rfl⟩, rfl⟩
    · next t after hread =>
      dsimp only
      split
      · next htag => exact ⟨.inr ⟨[], _, rfl, beq_iff_eq.mp htag⟩, rfl⟩
      · next htag =>
        have hleft := readToken_left hread
        have htook : after.rest.length < t.left after.rest :=
          Token.length_lt_left (by simpa using htag)
        have hless : after.takeComments.2.rest.length < lx.rest.length := htook.trans_le hleft
        obtain ⟨hcomplete, hsame⟩ := @ih (reader.note seen t) after.takeComments.2 fuel'
          (by omega) (by omega)
        exact ⟨hcomplete.cons _, congrArg (cons _) hsame⟩

end TokenStream
end ScriptPress
