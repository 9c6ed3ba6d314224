import ScriptPress.Proofs.Lexical.Lexeme
import ScriptPress.Render.StringText

/-! # Joining the lines of strings

A string without its line continuations is a string again, and has none.
-/
namespace ScriptPress.Render
open Literal

theorem joined_joined (place : ContinuationPlace) (text : List Char) :
    withoutContinuationsFrom (.plain false) (withoutContinuationsFrom place text)
      = withoutContinuationsFrom place text := by
  induction text generalizing place with
  | nil => cases place <;> rfl
  | cons c text ih =>
    cases place with
    | plain feed =>
      rw [withoutContinuationsFrom]
      split
      · exact ih _
      split
      · exact ih _
      · next hescape => rw [withoutContinuationsFrom, if_neg (by simp), if_neg hescape, ih]
    | escape =>
      rw [withoutContinuationsFrom]
      split
      · exact ih _
      · next hbreak =>
        rw [withoutContinuationsFrom, if_neg (by simp), if_pos (by simp), withoutContinuationsFrom,
          if_neg hbreak, ih]

theorem withoutContinuations_idem (s : String) :
    withoutContinuations (withoutContinuations s) = withoutContinuations s := by
  rw [withoutContinuations, withoutContinuations, String.toList_ofList, joined_joined]

/-- A whole text is what is left of a string at a place. -/
def IsStringRest (quote : Char) (place : StringPlace) (text : List Char) : Prop :=
  stringFrom quote place text = .token text []

theorem isStringRest_cons {quote c : Char} {place place' : StringPlace} {text : List Char}
    (h : ∀ rest, stringFrom quote place (c :: rest) = (stringFrom quote place' rest).cons c) :
    IsStringRest quote place (c :: text) ↔ IsStringRest quote place' text := by
  unfold IsStringRest
  rw [h]
  cases stringFrom quote place' text with
  | token taken rest => simp [Scan.cons]
  | problem p taken => simp [Scan.cons]

/-- Wherever a scan stands, the rest of a string is one without its continuations. -/
theorem isStringRest_joined (quote : Char) (text : List Char) :
    (∀ feed, IsStringRest quote (.plain feed) text →
      IsStringRest quote (.plain false) (withoutContinuationsFrom (.plain feed) text))
    ∧ (IsStringRest quote .escape text →
      IsStringRest quote (.plain false) (withoutContinuationsFrom .escape text))
    ∧ (∀ more, IsStringRest quote (.hex more) text →
      IsStringRest quote (.hex more) (withoutContinuationsFrom (.plain false) text)) := by
  induction text with
  | nil =>
    refine ⟨fun feed h => ?_, fun h => ?_, fun more h => ?_⟩
    · cases h
    · cases h
    · cases h
  | cons c text ih =>
    obtain ⟨ihplain, ihescape, ihhex⟩ := ih
    refine ⟨fun feed h => ?_, fun h => ?_, fun more h => ?_⟩
    · by_cases h1 : (feed && c == '\n') = true
      · rw [withoutContinuationsFrom, if_pos h1]
        exact ihplain false ((isStringRest_cons fun rest => by rw [stringFrom, if_pos h1]).mp h)
      by_cases h2 : Text.isLineBreak c = true
      · unfold IsStringRest at h
        rw [stringFrom, if_neg h1, if_pos h2] at h
        cases h
      by_cases h3 : (c == '\\') = true
      · rw [withoutContinuationsFrom, if_neg h1, if_pos h3]
        exact ihescape ((isStringRest_cons fun rest => by
          rw [stringFrom, if_neg h1, if_neg h2, if_pos h3]).mp h)
      rw [withoutContinuationsFrom, if_neg h1, if_neg h3]
      by_cases h4 : (c == quote) = true
      · unfold IsStringRest at h
        rw [stringFrom, if_neg h1, if_neg h2, if_neg h3, if_pos h4] at h
        obtain rfl : text = [] := by simpa using h
        unfold IsStringRest
        rw [withoutContinuationsFrom, stringFrom, if_neg (by simp), if_neg h2, if_neg h3,
          if_pos h4]
      · refine (isStringRest_cons fun rest => ?_).mpr
          (ihplain false ((isStringRest_cons fun rest => ?_).mp h))
        · rw [stringFrom, if_neg (by simp), if_neg h2, if_neg h3, if_neg h4]
        · rw [stringFrom, if_neg h1, if_neg h2, if_neg h3, if_neg h4]
    · have hstep : ∀ rest, stringFrom quote .escape (c :: rest) = (stringFrom quote
          (if c == 'x' then .hex 1 else if c == 'u' then .hex 3 else .plain (c == '\r')) rest).cons
            c := fun rest => by rw [stringFrom]
      have hnext := (isStringRest_cons hstep).mp h
      rw [withoutContinuationsFrom]
      by_cases h1 : Text.isLineBreak c = true
      · rw [if_pos h1]
        have hx : (c == 'x') = false := by
          by_contra hc
          obtain rfl : c = 'x' := by simpa using hc
          revert h1
          decide
        have hu : (c == 'u') = false := by
          by_contra hc
          obtain rfl : c = 'u' := by simpa using hc
          revert h1
          decide
        rw [hx, hu] at hnext
        exact ihplain _ hnext
      · rw [if_neg h1]
        have hr : (c == '\r') = false := by
          by_contra hc
          obtain rfl : c = '\r' := by simpa using hc
          exact h1 (by decide)
        refine (isStringRest_cons fun rest => ?_).mpr ((isStringRest_cons hstep).mpr ?_)
        · rw [stringFrom, if_neg (by simp), if_neg (by decide), if_pos (by simp)]
        · rw [hr] at hnext ⊢
          by_cases hx : (c == 'x') = true
          · rw [if_pos hx] at hnext ⊢
            exact ihhex _ hnext
          rw [if_neg hx] at hnext ⊢
          by_cases hu : (c == 'u') = true
          · rw [if_pos hu] at hnext ⊢
            exact ihhex _ hnext
          · rw [if_neg hu] at hnext ⊢
            exact ihplain _ hnext
    · by_cases h1 : Text.isHexDigit c = true
      · have hplain : (c == '\\') = false := by
          by_contra hc
          obtain rfl : c = '\\' := by simpa using hc
          revert h1
          decide
        rw [withoutContinuationsFrom, if_neg (by simp), if_neg (by simp [hplain])]
        cases more with
        | zero =>
          have hstep : ∀ rest, stringFrom quote (.hex 0) (c :: rest)
              = (stringFrom quote (.plain false) rest).cons c := fun rest => if_pos h1
          exact (isStringRest_cons hstep).mpr (ihplain false ((isStringRest_cons hstep).mp h))
        | succ n =>
          have hstep : ∀ rest, stringFrom quote (.hex (n + 1)) (c :: rest)
              = (stringFrom quote (.hex n) rest).cons c := fun rest => if_pos h1
          exact (isStringRest_cons hstep).mpr (ihhex n ((isStringRest_cons hstep).mp h))
      · unfold IsStringRest at h
        have hproblem : stringFrom quote (.hex more) (c :: text) = .problem .invalidEscape [] :=
          if_neg h1
        rw [hproblem] at h
        cases h

theorem string_joined {text : List Char} (h : Literal.string text = .token text [])
    (hquote : Lexer.opensString text = true) :
    Literal.string (withoutContinuationsFrom (.plain false) text)
        = .token (withoutContinuationsFrom (.plain false) text) []
      ∧ (withoutContinuationsFrom (.plain false) text).head? = text.head? := by
  cases text with
  | nil => cases h
  | cons quote body =>
    have hor : quote = '"' ∨ quote = '\'' := by simpa [Lexer.opensString] using hquote
    have hescape : quote ≠ '\\' := by rcases hor with rfl | rfl <;> decide
    have hbody : IsStringRest quote (.plain false) body := by
      obtain ⟨taken, htaken, hscan⟩ := cons_token h
      obtain rfl : body = taken := by simpa using htaken
      exact hscan
    have hjoined := (isStringRest_joined quote body).1 false hbody
    rw [withoutContinuationsFrom, if_neg (by simp), if_neg (by simpa using hescape)]
    refine ⟨?_, rfl⟩
    rw [Literal.string, hjoined]
    rfl

/-- A string stays one when its lines are joined. -/
theorem isLexeme_joined {d : Dialect} {s : String}
    (h : Lexer.IsLexeme d s.toList ⟨.string, none, some s⟩) :
    Lexer.IsLexeme d (withoutContinuations s).toList
      ⟨.string, none, some (withoutContinuations s)⟩ := by
  obtain ⟨c, hc, hl⟩ := h
  rw [Lexer.lexeme_eq hc] at hl
  split at hl
  · obtain ⟨-, hs⟩ := Lexer.literal_ok hl
    cases hs
  next hn =>
  split at hl
  · obtain ⟨w, -, hs, -, -⟩ := Lexer.wordLexeme_ok hl
    rcases hs.worded (by simp) with htag | htag <;> cases htag
  next hw =>
  split at hl
  · next hstring =>
    obtain ⟨hscan, -⟩ := Lexer.literal_ok hl
    obtain ⟨hjoined, hhead⟩ := string_joined hscan hstring
    rw [withoutContinuations, String.toList_ofList]
    rw [hc] at hhead
    refine ⟨c, hhead, ?_⟩
    rw [Lexer.lexeme_eq hhead]
    have hquote : c = '"' ∨ c = '\'' := by simpa [Lexer.opensString, hc] using hstring
    have hn' : Lexer.opensNumber (withoutContinuationsFrom (.plain false) s.toList) = false := by
      rcases hquote with rfl | rfl <;> simp [Lexer.opensNumber, hhead] <;> decide
    have hw' : Lexer.opensWord (withoutContinuationsFrom (.plain false) s.toList) = false := by
      rcases hquote with rfl | rfl <;> simp [Lexer.opensWord, hhead] <;> decide
    have hs' : Lexer.opensString (withoutContinuationsFrom (.plain false) s.toList) = true := by
      rcases hquote with rfl | rfl <;> simp [Lexer.opensString, hhead]
    rw [hn', hw', hs', hjoined]
    rfl
  · obtain ⟨p, -, -, hs, -⟩ := Lexer.signLexeme_ok hl
    cases congrArg Sym.text hs

end ScriptPress.Render
