import ScriptPress.Grammar.Script
import ScriptPress.Proofs.Lexical.LineCount

/-! # What diagnostics show of tokens

A diagnostic names a token by its text, or else by the spelling of its operator. That is what
stands in the source at the token's place, whatever calls read it, with one exception: a compound
assignment is shown as its operator alone, without the `=` behind it.
-/
namespace ScriptPress

namespace Token
open Lexer (WordSym Kind isTidy sign_spelling)
variable {d : Dialect} {slice after : List Char} {t : Token}

/-- Whether a token is an assignment that carries an operator, as `+=` does. -/
def isCompound (t : Token) : Bool := t.tag == .assign && t.datum.isSome

/-- A name for a token tells what stands at its place. An identifier is named by what its escapes
stand for. -/
def Quotes (t : Token) (slice : List Char) (name : String) : Prop :=
  if t.tag = .identifier then Literal.Decodes slice name.toList else name.toList = slice

/-- What is shown of a token is its spelling, but for the sign behind a compound assignment. -/
theorem spelling_shown (h : t.tag = .assign → t.text = none) :
    t.sym.spelling = if t.isCompound then t.shown ++ "=" else t.shown := by
  cases htext : t.text with
  | some text =>
    have hassign : t.tag ≠ .assign := fun htag => by simp [h htag] at htext
    simp [sym, Sym.spelling, isCompound, shown, htext, hassign]
  | none =>
    cases hdatum : t.datum with
    | some datum => simp [sym, Sym.spelling, isCompound, shown, htext, hdatum]
    | none =>
      by_cases hassign : t.tag = .assign
      · simp [sym, Sym.spelling, isCompound, shown, htext, hdatum, hassign, Tag.spelling]
      · simp [sym, Sym.spelling, isCompound, shown, htext, hdatum, hassign]

theorem Spells.assign (h : t.Spells d slice after) (htag : t.tag = .assign) : t.text = none := by
  cases h with
  | literal hliteral => simp [htag] at hliteral
  | name name hname => simp [htag] at hname
  | keyword hk htext => rw [htext, htag, if_neg (by decide)]
  | sign p hp hslice hp' hdatum htext => exact htext

theorem word_of_keyword (hk : keyword? (String.ofList slice) d = some (t.tag, t.datum))
    (htext : t.text = if t.tag = .reserved then some (String.ofList slice) else none) :
    WordSym d (String.ofList slice) false t.sym := by
  have hsym := WordSym.keyword hk (rfl : false = false)
  rwa [← show t.text = if (t.tag == .reserved) = true then _ else none by simpa using htext] at hsym

theorem sign_of_table {p : Punctuator} (htag : t.tag = p.tag) (hdatum : t.datum = p.datum)
    (htext : t.text = none) : t.sym = ⟨p.tag, p.datum, none⟩ := by
  rw [sym, htag, hdatum, htext]

/-- Whatever is not a name is spelled as it stands in the source. -/
theorem Spells.spelling (h : t.Spells d slice after) (htag : t.tag ≠ .identifier) :
    t.sym.spelling.toList = slice := by
  cases h with
  | literal hliteral hdatum htext => simp [sym, Sym.spelling, htext]
  | name name hname => exact absurd hname htag
  | keyword hk htext => rw [(word_of_keyword hk htext).spelling, String.toList_ofList]
  | sign p hp hslice htag' hdatum htext =>
    rw [sign_of_table htag' hdatum htext, sign_spelling p hp, hslice]

/-- A name is shown as what its characters stand for. -/
theorem Spells.decodes (h : t.Spells d slice after) (htag : t.tag = .identifier) :
    Literal.Decodes slice t.shown.toList := by
  -- Neither a keyword nor a sign is tagged as a name: names come with their text.
  have hnamed : isTidy t.sym = true → t.text.isSome = true := fun htidy => by
    simp only [isTidy, sym, htag, Bool.and_eq_true] at htidy
    exact htidy.2
  cases h with
  | name name hname hdatum hdecodes hk htext => simpa [Token.shown, htext] using hdecodes
  | literal hliteral => simp [htag] at hliteral
  | keyword hk htext =>
    have hkind : Kind d slice t.sym := .word (word_of_keyword hk htext)
    have hsome := hnamed hkind.tidy
    simp [htext, htag] at hsome
  | sign p hp hslice htag' hdatum htext =>
    have hsome := hnamed (sign_of_table htag' hdatum htext ▸ Kind.tidy (d := d) (.sign hp hslice))
    simp [htext] at hsome

/-- What a diagnostic shows of a token stands at its place, and a compound assignment is the only
token with more characters there. -/
theorem Spells.shown (h : t.Spells d slice after) :
    (t.isCompound = false → t.Quotes slice t.shown)
      ∧ (t.isCompound = true → slice = t.shown.toList ++ ['=']) := by
  by_cases htag : t.tag = .identifier
  · refine ⟨fun _ => ?_, fun hcompound => ?_⟩
    · rw [Quotes, if_pos htag]
      exact h.decodes htag
    · simp [isCompound, htag] at hcompound
  · have hspelling := h.spelling htag
    rw [spelling_shown h.assign] at hspelling
    refine ⟨fun hplain => ?_, fun hcompound => ?_⟩
    · rw [Quotes, if_neg htag]
      simpa [hplain] using hspelling
    · simpa [hcompound] using hspelling.symm

end Token

namespace Grammar
variable {α : Type}

/-- Run from a state, a reading stops on the line of the current token, where it misses an operand
or names the token. -/
def StopsAt (s : State) (m : Reading α) : Prop :=
  ∃ p, m s = .error ⟨s.current.line, p⟩
    ∧ (p = .missing .operand ∨ p = .unexpected s.current.shown)

theorem stopsAt_unexpected (s : State) : StopsAt s (unexpected : Reading α) := by
  have hget : ∀ f : State → Reading α, StopsAt s (f s) → StopsAt s (get >>= f) := fun _ h => h
  refine hget _ ?_
  dsimp only
  split
  case h_6 => exact ⟨_, rfl, .inr rfl⟩
  all_goals exact ⟨_, rfl, .inl rfl⟩

end Grammar

namespace Lexer
open Part (Between byteLength_append)

/-- A token stands in a source and carries what its characters there spell. -/
def Spelled (source : List Char) (t : Token) : Prop :=
  ∃ d slice after, Between source t.start t.stop slice after ∧ t.Spells d slice after

variable {source passed : List Char} {line : Nat} {lx lx' : Lexer} {t slash : Token}

theorem Counts.next_spelled (h : Counts source line passed lx) (hnext : lx.next = (.ok t, lx'))
    (htag : t.tag ≠ .endOfInput) : Spelled source t := by
  obtain ⟨scanned, hscanned, hu, hstart, ⟨-, heoi, -⟩ | ⟨c, l, hc, hl, hof, hstop, rfl⟩⟩ :=
    next_inv hnext
  · exact absurd heoi htag
  obtain ⟨gap, -, hpass, -⟩ := h.pass (by rw [Gap.scan, hscanned]; exact hu)
  rw [Gap.scan, hscanned] at hpass
  rw [hof] at hl
  obtain ⟨hsplit, -⟩ := lexeme_ok hc hl
  refine ⟨_, l.taken, l.rest, ⟨passed ++ gap, ?_, ?_, ?_⟩, spells_of_lexeme hc hl⟩
  · rw [List.append_assoc]
    exact hpass.whole.trans (congrArg (passed ++ gap ++ ·) hsplit)
  · rw [hstart, hpass.position]
  · rw [hstop, hstart, hpass.position, byteLength_append _ l.taken]

/-- The regular expression that a slash is read as again begins where the slash does. -/
theorem Counts.rescan_spelled {last : Nat} {before gap slice : List Char} {place : Lexer}
    (hstands : slash.Stands source line last before gap slice place.rest)
    (hslash : slice ++ place.rest = '/' :: slash.reopen place.rest)
    (hcounts : Counts source line (before ++ gap ++ slice) place)
    (hr : (lx.backTo place).rescan slash = (.ok t, lx')) : Spelled source t := by
  obtain ⟨body, hregExp, rfl, -⟩ := rescan_pattern_eq hr
  obtain ⟨slice', hstands', -⟩ := Counts.rescan hstands hslash hcounts hr
  have hsplit : slash.reopen place.rest = body ++ lx'.rest := (Literal.regExp_token hregExp).1
  have hslice : slice' = '/' :: body := by
    have hwhole := hstands'.whole
    rw [hstands.whole, List.append_assoc, List.append_assoc _ slice', hslash, hsplit] at hwhole
    exact (List.append_cancel_right (List.append_cancel_left hwhole)).symm
  subst hslice
  refine ⟨lx.dialect, _, _, ⟨before ++ gap, hstands'.whole, hstands'.start, hstands'.stop⟩, ?_⟩
  exact .literal (Or.inr (Or.inr rfl)) rfl rfl

/-- Whatever calls a run is made of, its tokens carry what the source has at their places. -/
theorem Calls.spelled {text : String} {d : Dialect} {keep : Bool} {tokens : List Token}
    (h : Calls (Lexer.start text d line keep) tokens lx) :
    ∀ t ∈ tokens, t.tag ≠ .endOfInput → Spelled text.toList t := by
  induction h with
  | begin => simp
  | next hcalls hnext ih =>
    obtain ⟨passed, hpassed⟩ := hcalls.accounted.counts
    intro t ht htag
    rcases List.mem_append.mp ht with ht | ht
    · exact ih t ht htag
    · obtain rfl := List.mem_singleton.mp ht
      exact hpassed.next_spelled hnext htag
  | rescan hcalls hback hslash hr ih ihback =>
    obtain ⟨before, gap, slice, hstands, hcounts, hopens⟩ :=
      hback.accounted.last _ _ rfl hslash
    intro t ht htag
    rcases List.mem_append.mp ht with ht | ht
    · exact ihback t (List.mem_append_left _ ht) htag
    · obtain rfl := List.mem_singleton.mp ht
      exact Counts.rescan_spelled hstands hopens hcounts hr

/-- Whatever calls of the lexer read a token, diagnostics show it as it stands in the source
between its places, with the escapes of a name decoded, and a reading that cannot go on there
names it so. Only a compound assignment is shown without its last character, the `=`. -/
theorem calls_show {text : String} {d : Dialect} {keep : Bool} {tokens : List Token}
    (h : Calls (Lexer.start text d line keep) tokens lx) :
    ∀ t ∈ tokens, t.tag ≠ .endOfInput →
      ∃ slice after, Between text.toList t.start t.stop slice after
        ∧ (t.Quotes slice t.shown ↔ t.isCompound = false)
        ∧ (t.isCompound = true → slice = t.shown.toList ++ ['='])
        ∧ ∀ s : Grammar.State, s.current = t → ∃ p,
          (Grammar.unexpected : Grammar.Reading Tree) s = .error ⟨t.line, p⟩
            ∧ (p = .missing .operand ∨ ∃ name, p = .unexpected name
              ∧ (t.isCompound = false → t.Quotes slice name)) := by
  intro t ht htag
  obtain ⟨_, slice, after, hbetween, hspells⟩ := h.spelled t ht htag
  obtain ⟨hquotes, hcompound⟩ := hspells.shown
  refine ⟨slice, after, hbetween, ⟨fun h => ?_, hquotes⟩, hcompound, fun s hs => ?_⟩
  · by_contra hplain
    have hassign : t.isCompound = true := by simpa using hplain
    have hname : t.tag ≠ .identifier := fun htag => by simp [Token.isCompound, htag] at hassign
    rw [Token.Quotes, if_neg hname] at h
    have hslice := hcompound hassign
    simp [← h] at hslice
  · obtain ⟨p, hp, hmissing | hshown⟩ := Grammar.stopsAt_unexpected (α := Tree) s
    · exact ⟨p, hs ▸ hp, .inl hmissing⟩
    · exact ⟨p, hs ▸ hp, .inr ⟨t.shown, hs ▸ hshown, hquotes⟩⟩

/-- A name with an escape, a keyword, and a slash that is read again. -/
theorem calls_show_pattern : ∃ (tokens : List Token) (lx : Lexer),
    Calls (Lexer.start "\\u0061 in /=x/" .v13 1 false) tokens lx
      ∧ tokens.map Token.shown = ["a", "in", "/=x/"]
      ∧ ∀ t ∈ tokens, t.tag ≠ .endOfInput → ∃ slice after,
        Between "\\u0061 in /=x/".toList t.start t.stop slice after ∧ t.Quotes slice t.shown := by
  obtain ⟨tokens, lx, hcalls, hshown, hplain⟩ : ∃ tokens lx,
      Calls (Lexer.start "\\u0061 in /=x/" .v13 1 false) tokens lx
        ∧ tokens.map Token.shown = ["a", "in", "/=x/"] ∧ tokens.any Token.isCompound = false := by
    have hslash : Calls (Lexer.start "\\u0061 in /=x/" .v13 1 false) ([_, _] ++ [_]) _ :=
      .next (.next (.next .begin rfl) rfl) rfl
    exact ⟨_, _, .rescan hslash hslash rfl rfl, rfl, rfl⟩
  refine ⟨tokens, lx, hcalls, hshown, fun t ht htag => ?_⟩
  obtain ⟨slice, after, hbetween, hquotes, -⟩ := calls_show hcalls t ht htag
  exact ⟨slice, after, hbetween, hquotes.mpr (by simpa using List.any_eq_false.mp hplain t ht)⟩

/-- A compound assignment that is out of place is named by its operator, which is not all that
stands there. -/
theorem calls_show_compound : (∃ (t : Token) (lx : Lexer),
      Calls (Lexer.start "+=1" .latest 1 false) [t] lx ∧ t.tag ≠ .endOfInput
        ∧ Between "+=1".toList t.start t.stop "+=".toList "1".toList
        ∧ t.shown = "+" ∧ ¬ t.Quotes "+=".toList t.shown)
    ∧ ∃ d, Script.read {} "+=1" = .error d ∧ d.problem = .unexpected "+" := by
  constructor
  · refine ⟨_, _, .next .begin rfl, by decide, ⟨[], rfl, rfl, rfl⟩, rfl, ?_⟩
    rw [Token.Quotes, if_neg (by decide)]
    decide
  · have hproblem : (match Script.read {} "+=1" with
        | .error d => some d.problem
        | .ok _ => none) = some (.unexpected "+") := by decide +kernel
    split at hproblem
    · next d hread => exact ⟨d, hread, Option.some.inj hproblem⟩
    · cases hproblem

end Lexer
end ScriptPress
