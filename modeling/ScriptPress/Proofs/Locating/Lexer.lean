import ScriptPress.Proofs.Lexical.LineCount
import ScriptPress.Proofs.Removal.Scan

/-! # The lines of lexical problems

A scan that stops at a problem has taken the beginning of its text. The lexer counts the lines of
that beginning on from those it has passed, so that a problem is on a line of the text.
-/
namespace ScriptPress

namespace Text

theorem lineBreaks_le_append (text more : List Char) :
    lineBreaks text ≤ lineBreaks (text ++ more) := by
  induction text with
  | nil => exact Nat.zero_le _
  | cons c rest ih =>
    cases rest with
    | nil =>
      cases more with
      | nil => simp
      | cons d more =>
        by_cases hpair : (c == '\r' && d == '\n') = true
        · -- The line ends behind the line feed only.
          obtain ⟨rfl, rfl⟩ : c = '\r' ∧ d = '\n' := by simpa using hpair
          cases more <;> simp [lineBreaks, isLineBreak]
        · simp [lineBreaks, hpair]
    | cons d rest =>
      simp only [List.cons_append, lineBreaks] at ih ⊢
      exact Nat.add_le_add_left ih _

/-- The numbers of the lines of a text, counted from its first one. -/
def IsLine (source : List Char) (first n : Nat) : Prop :=
  first ≤ n ∧ n ≤ first + lineBreaks source

theorem IsLine.first (source : List Char) (first : Nat) : IsLine source first first :=
  ⟨le_rfl, Nat.le_add_right _ _⟩

/-- Where a beginning of a text ends, a line of the text is. -/
theorem IsLine.behind {source before : List Char} (h : before <+: source) (first : Nat) :
    IsLine source first (first + lineBreaks before) := by
  obtain ⟨after, rfl⟩ := h
  exact ⟨Nat.le_add_right _ _, Nat.add_le_add_left (lineBreaks_le_append _ _) _⟩

end Text

/-! ## What a scan has taken -/

/-- The characters a scan has taken, whether it made a token of them or met a problem. -/
def Scan.taken : Scan → List Char
  | token taken _ => taken
  | problem _ taken => taken

@[simp] theorem Scan.taken_cons (c : Char) (scan : Scan) :
    (scan.cons c).taken = c :: scan.taken := by
  cases scan <;> rfl

namespace Literal

theorem exponent_taken (taken text : List Char) :
    ∃ power, (exponent taken text).taken = taken ++ power ∧ power <+: text := by
  cases text with
  | nil => exact ⟨[], by simp [exponent, Scan.taken], List.nil_prefix⟩
  | cons mark text =>
    obtain ⟨signed, digits, hsign, rfl, -⟩ := sign_eq text
    simp only [exponent, hsign]
    have hpower : mark :: signed ++ digits.takeWhile Text.isDigit <+: mark :: (signed ++ digits) :=
      List.prefix_cons_inj _ |>.mpr <| (List.prefix_append_right_inj _).mpr
        (List.takeWhile_prefix _)
    split
    · refine ⟨_, ?_, hpower⟩
      split <;> exact List.append_assoc _ _ _
    · exact ⟨[], by simp [Scan.taken], List.nil_prefix⟩

theorem decimal_taken (text : List Char) : (decimal text).taken <+: text := by
  obtain ⟨point, after, hfraction, hafter, -⟩ := fraction_eq (text.dropWhile Text.isDigit)
  obtain ⟨power, htaken, hpower⟩ := exponent_taken (text.takeWhile Text.isDigit ++ point) after
  have htext : text = text.takeWhile Text.isDigit ++ point ++ after := by
    rw [List.append_assoc, ← hafter, List.takeWhile_append_dropWhile]
  rw [decimal, hfraction, htaken]
  exact ((List.prefix_append_right_inj _).mpr hpower).trans (htext ▸ List.prefix_refl _)

theorem numeral_taken (text : List Char) : (numeral text).taken <+: text := by
  by_cases hx : opensZero isHexMark text = true
  · obtain ⟨mark, rest, rfl, hm⟩ := opensZero_iff.mp hx
    have hdigits : '0' :: mark :: rest.takeWhile Text.isHexDigit <+: '0' :: mark :: rest :=
      (List.prefix_append_right_inj ['0', mark]).mpr (List.takeWhile_prefix _)
    rw [numeral_hex hm]
    split <;> exact hdigits
  by_cases ho : opensOctal text = true
  · rw [numeral_octal ho]
    exact List.takeWhile_prefix _
  · rw [numeral_decimal (by simpa using hx) (by simpa using ho)]
    exact decimal_taken text

theorem number_taken (text : List Char) : (number text).taken <+: text := by
  have htaken := numeral_taken text
  rw [number]
  split
  · next hn =>
    rw [hn] at htaken
    split <;> exact htaken
  · exact htaken

theorem stringFrom_taken (quote : Char) (place : StringPlace) (text : List Char) :
    (stringFrom quote place text).taken <+: text := by
  induction text generalizing place with
  | nil => cases place <;> exact List.nil_prefix
  | cons c text ih =>
    have hgo : ∀ place, ((stringFrom quote place text).cons c).taken <+: c :: text := by
      intro place
      rw [Scan.taken_cons]
      exact (List.prefix_cons_inj c).mpr (ih place)
    rw [stringFrom.eq_def]
    cases place with
    | plain feed =>
      dsimp only
      split
      · exact hgo _
      split
      · exact List.nil_prefix
      split
      · exact hgo _
      split
      · exact (List.prefix_cons_inj c).mpr List.nil_prefix
      · exact hgo _
    | escape => exact hgo _
    | hex more =>
      dsimp only
      split
      · exact hgo _
      · exact List.nil_prefix

theorem string_taken (text : List Char) : (string text).taken <+: text := by
  cases text with
  | nil => exact List.nil_prefix
  | cons quote text =>
    have hbody := stringFrom_taken quote (.plain false) text
    have hstring : string (quote :: text) = (stringFrom quote (.plain false) text).cons quote := rfl
    rw [hstring, Scan.taken_cons]
    exact (List.prefix_cons_inj quote).mpr hbody

end Literal

namespace Lexer
open Text (IsLine lineBreaks lineBreaks_append)

theorem literal_taken {tag : Tag} {scan : Scan} {fault : Fault}
    (h : literal tag scan = .error fault) : fault.taken = scan.taken := by
  cases scan with
  | token taken rest => cases h
  | problem p taken =>
    cases h
    rfl

/-- The characters read before a problem begin the text. -/
theorem lexeme_taken {d : Dialect} {c : Char} {text : List Char} {fault : Fault}
    (hc : text.head? = some c) (h : lexeme d c text = .error fault) : fault.taken <+: text := by
  rw [lexeme_eq hc] at h
  split at h
  · rw [literal_taken h]
    exact Literal.number_taken text
  split at h
  · have hnone : fault.taken = [] := by
      rw [wordLexeme] at h
      split at h
      · cases h
        rfl
      · dsimp only at h
        split at h
        · cases h
        · split at h
          · cases h
            rfl
          · cases h
    rw [hnone]
    exact List.nil_prefix
  split at h
  · rw [literal_taken h]
    exact Literal.string_taken text
  · have hnone : fault.taken = [] := by
      rw [signLexeme] at h
      split at h
      · cases h
        rfl
      · split at h
        · cases h
          rfl
        · cases h
    rw [hnone]
    exact List.nil_prefix

/-! ## Where the lexer stops -/

variable {source passed : List Char} {line : Nat} {lx lx' : Lexer} {t slash : Token}
  {d : Diagnostic}

/-- The line behind the gap before the next token, whether its last comment ends or not. -/
theorem Counts.pass_line (h : Counts source line passed lx) :
    IsLine source line (lx.pass (Gap.scan lx.fresh lx.rest)).line := by
  obtain ⟨-, htext⟩ := Gap.scanFrom_undivided (.between lx.fresh) lx.rest trivial
  have hrest : lx.rest = Gap.pieceTexts (Gap.scan lx.fresh lx.rest).pieces
      ++ ((Gap.scan lx.fresh lx.rest).unfinished.getD [] ++ (Gap.scan lx.fresh lx.rest).rest) :=
    htext
  have hapart := h.apart
  rw [hrest] at hapart
  have hline : (lx.pass (Gap.scan lx.fresh lx.rest)).line
      = line + lineBreaks (passed ++ Gap.pieceTexts (Gap.scan lx.fresh lx.rest).pieces) := by
    rw [lineBreaks_append hapart.left, ← Nat.add_assoc, ← h.line]
    rfl
  have hwhole : passed ++ Gap.pieceTexts (Gap.scan lx.fresh lx.rest).pieces <+: source := by
    rw [h.whole, List.prefix_append_right_inj]
    exact ⟨_, hrest.symm⟩
  rw [hline]
  exact .behind hwhole line

theorem counts_start (text : String) (d : Dialect) (line : Nat) (keep : Bool) :
    Counts text.toList line [] (start text d line keep) :=
  ⟨rfl, rfl, rfl, .of_last (by simp)⟩

/-- A problem that the lexer reports is on a line of the text. -/
theorem Counts.next_problem (h : Counts source line passed lx) (hnext : lx.next = (.error d, lx')) :
    IsLine source line d.line := by
  have hpass := h.pass_line
  rw [Lexer.next] at hnext
  dsimp only at hnext
  split at hnext
  · obtain ⟨rfl, -⟩ := (Prod.mk.inj hnext).imp_left Except.error.inj
    exact hpass
  · next hu =>
    split at hnext
    · cases hnext
    · next c rest hrest =>
      split at hnext
      · next fault hfault =>
        obtain ⟨rfl, -⟩ := (Prod.mk.inj hnext).imp_left Except.error.inj
        obtain ⟨gap, -, hcounts, -⟩ := h.pass hu
        obtain ⟨after, hafter⟩ := lexeme_taken (c := c) (by rw [hrest]; rfl) hfault
        have hafter : fault.taken ++ after = (lx.pass (Gap.scan lx.fresh lx.rest)).rest := hafter
        have hapart := hcounts.apart
        rw [← hafter] at hapart
        dsimp only
        split
        · exact hpass
        · -- The lines of what was taken are counted on from those passed.
          have hline : ({ lx.pass (Gap.scan lx.fresh lx.rest) with fresh := false }.advance
              fault.taken []).line = line + lineBreaks (passed ++ gap ++ fault.taken) := by
            rw [lineBreaks_append hapart.left, ← Nat.add_assoc, ← hcounts.line]
            rfl
          rw [hline]
          refine .behind ⟨after, ?_⟩ line
          rw [List.append_assoc, hafter, hcounts.whole]
      · cases hnext

/-- A slash that cannot be read again is reported on its own line. -/
theorem rescan_problem (h : lx.rescan slash = (.error d, lx')) : d.line = slash.line := by
  rw [rescan] at h
  split at h
  · obtain ⟨rfl, -⟩ := (Prod.mk.inj h).imp_left Except.error.inj
    rfl
  · dsimp only at h
    split at h
    · obtain ⟨rfl, -⟩ := (Prod.mk.inj h).imp_left Except.error.inj
      rfl
    · cases h

/-- The last token of a text is on its last line. -/
theorem Counts.next_last (h : Counts source line passed lx) (hnext : lx.next = (.ok t, lx'))
    (ht : t.tag = .endOfInput) : t.line = line + lineBreaks source := by
  obtain ⟨scanned, hscanned, hu, -, hcase⟩ := next_inv hnext
  obtain ⟨gap, -, hpass, -⟩ := h.pass (by rw [Gap.scan, hscanned]; exact hu)
  have hline := next_line hnext
  rw [Gap.scan, hscanned] at hpass hline
  obtain ⟨hrest, -⟩ | ⟨c, l, hc, hl, hof, -⟩ := hcase
  · have hwhole : source = passed ++ gap := by
      rw [hpass.whole, show (lx.pass scanned).rest = [] from hrest, List.append_nil]
    rw [hline, hpass.line, hwhole]
  · have hkind := lexeme_kind hc (hof ▸ hl)
    exact absurd ht hkind.tags.2.1

/-- The line of a token that was read. -/
theorem isLine_of_stands {last : Nat} {before gap slice after : List Char}
    (h : t.Stands source line last before gap slice after) : IsLine source line t.line := by
  rw [h.line]
  refine .behind ?_ line
  rw [h.whole, List.append_assoc (before ++ gap)]
  exact List.prefix_append _ _

end Lexer

/-! ## Readings without a grammar -/

namespace TokenStream
open Lexer (Counts)
open Text (IsLine)

variable {σ : Type} {reader : SlashReader σ} {seen : σ} {source passed : List Char} {line : Nat}
  {lx lx' : Lexer} {t : Token} {d : Diagnostic}

theorem readToken_problem (h : Counts source line passed lx)
    (hread : readToken reader seen lx = (.error d, lx')) : IsLine source line d.line := by
  rw [readToken] at hread
  split at hread
  · next hnext =>
    obtain ⟨rfl, -⟩ := (Prod.mk.inj hread).imp_left Except.error.inj
    exact h.next_problem hnext
  · next hnext =>
    obtain ⟨gap, slice, hstands, -⟩ := h.next hnext
    split at hread
    · rw [Lexer.rescan_problem hread]
      exact Lexer.isLine_of_stands hstands
    · cases hread

theorem readToken_counts (h : Counts source line passed lx)
    (hread : readToken reader seen lx = (.ok t, lx')) :
    ∃ passed, Counts source line passed lx' := by
  rw [readToken] at hread
  split at hread
  · cases hread
  · next hnext =>
    obtain ⟨gap, slice, hstands, hcounts, hslash⟩ := h.next hnext
    split at hread
    · next hagain =>
      obtain ⟨hslash', -⟩ := Bool.and_eq_true_iff.mp hagain
      obtain ⟨slice, -, hcounts, -⟩ := Counts.rescan hstands (hslash hslash') hcounts hread
      exact ⟨_, hcounts⟩
    · obtain ⟨-, rfl⟩ := Prod.mk.inj hread
      exact ⟨_, hcounts⟩

theorem readFrom_problem {fuel : Nat} (h : Counts source line passed lx)
    (hfailure : (readFrom reader fuel seen lx).failure = some d) : IsLine source line d.line := by
  induction fuel generalizing seen passed lx with
  | zero => cases hfailure
  | succ fuel ih =>
    rw [readFrom] at hfailure
    split at hfailure
    · next hread =>
      obtain rfl := Option.some.inj hfailure
      exact readToken_problem h hread
    · next t after hread =>
      obtain ⟨passed, hcounts⟩ := readToken_counts h hread
      -- Taking the comments leaves the place of the lexer.
      have htaken : Counts source line passed after.takeComments.2 :=
        ⟨hcounts.whole, hcounts.position, hcounts.line, hcounts.apart⟩
      dsimp only at hfailure
      split at hfailure
      · cases hfailure
      · exact ih htaken hfailure

end TokenStream

/-- What a comment removal reports is on a line of the text. -/
theorem removeCommentsByTokens_problem {text : String} {d : Dialect} {problem : Diagnostic}
    (h : removeCommentsByTokens text d = .error problem) :
    Text.IsLine text.toList 1 problem.line := by
  rw [removeCommentsByTokens] at h
  split at h
  · next hfailure =>
    obtain rfl := Except.error.inj h
    exact TokenStream.readFrom_problem (Lexer.counts_start text d 1 true) hfailure
  · cases h

end ScriptPress
