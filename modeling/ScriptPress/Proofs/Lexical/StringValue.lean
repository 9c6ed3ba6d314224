import ScriptPress.Proofs.Lexical.Joining

/-! # The values of strings

A string stands for a sequence of 16-bit units. Joining the lines of a string keeps its value unless
a line continuation stands between an octal escape and a digit that the escape would take: the
joined string is then shorter in value.
-/
namespace ScriptPress.Literal
open Render

/-! ## Values -/

/-- The units of a character: one, or a pair of surrogates. -/
def units (c : Char) : List Nat :=
  if c.toNat < 0x10000 then [c.toNat]
  else [0xd800 + (c.toNat - 0x10000) / 0x400, 0xdc00 + (c.toNat - 0x10000) % 0x400]

/-- What a character stands for behind a backslash, the letters of escapes included. -/
def escapedUnits (c : Char) : List Nat :=
  match c with
  | 'b' => [0x8]
  | 't' => [0x9]
  | 'n' => [0xa]
  | 'v' => [0xb]
  | 'f' => [0xc]
  | 'r' => [0xd]
  | c => units c

def isOctalDigit (c : Char) : Bool := '0' ≤ c && c ≤ '7'

def octalValue (c : Char) : Nat := c.toNat - '0'.toNat

/-- The number of octal digits an escape can take behind its first one: its value stays below 256. -/
def octalRoom (c : Char) : Nat := if c ≤ '3' then 2 else 1

/-- Where a reading of a value stands: among plain characters, with a line feed left out just after
an escaped carriage return; after a backslash; within an octal escape that can take some more
digits; or before some more hexadecimal digits. -/
inductive ValuePlace where
  | plain (feed : Bool)
  | escape
  | octal (sofar more : Nat)
  | hex (sofar more : Nat)
  deriving Repr, DecidableEq

/-- The value of the text of a string up to its closing quote. -/
def valueFrom (quote : Char) : ValuePlace → List Char → List Nat
  | .octal sofar _, [] => [sofar]
  | _, [] => []
  | .plain feed, c :: rest =>
    if feed && c == '\n' then valueFrom quote (.plain false) rest
    else if c == '\\' then valueFrom quote .escape rest
    else if c == quote then []
    else units c ++ valueFrom quote (.plain false) rest
  | .escape, c :: rest =>
    if Text.isLineBreak c then valueFrom quote (.plain (c == '\r')) rest
    else if c == 'x' then valueFrom quote (.hex 0 1) rest
    else if c == 'u' then valueFrom quote (.hex 0 3) rest
    else if isOctalDigit c then valueFrom quote (.octal (octalValue c) (octalRoom c)) rest
    else escapedUnits c ++ valueFrom quote (.plain false) rest
  | .octal sofar more, c :: rest =>
    if c == '\\' then sofar :: valueFrom quote .escape rest
    else if c == quote then [sofar]
    else if more != 0 && isOctalDigit c then
      valueFrom quote (.octal (8 * sofar + octalValue c) (more - 1)) rest
    else sofar :: (units c ++ valueFrom quote (.plain false) rest)
  | .hex sofar more, c :: rest =>
    let sofar := 16 * sofar + (Text.hexValue? c).getD 0
    match more with
    | 0 => sofar :: valueFrom quote (.plain false) rest
    | n + 1 => valueFrom quote (.hex sofar n) rest

/-- The value of a string, from its opening quote. -/
def value : List Char → List Nat
  | [] => []
  | quote :: text => valueFrom quote (.plain false) text

example : value "'\\x41\\1'".toList = [65, 1] := by cbv

/-! ## Divided escapes -/

/-- Where a search for divided escapes stands: among plain characters or after a backslash. `more`
is the number of digits the last octal escape can still take, and `cut` says that a continuation
stands behind it. -/
inductive CutPlace where
  | plain (feed cut : Bool) (more : Nat)
  | escape (more : Nat)
  deriving Repr, DecidableEq

/-- Whether a continuation stands between an octal escape and a digit the escape would take. -/
def dividesFrom (quote : Char) : CutPlace → List Char → Bool
  | _, [] => false
  | .plain feed cut more, c :: rest =>
    if feed && c == '\n' then dividesFrom quote (.plain false cut more) rest
    else if c == '\\' then dividesFrom quote (.escape more) rest
    else if c == quote then false
    else if more != 0 && isOctalDigit c then
      cut || dividesFrom quote (.plain false false (more - 1)) rest
    else dividesFrom quote (.plain false false 0) rest
  | .escape more, c :: rest =>
    if Text.isLineBreak c then dividesFrom quote (.plain (c == '\r') true more) rest
    else if isOctalDigit c then dividesFrom quote (.plain false false (octalRoom c)) rest
    else dividesFrom quote (.plain false false 0) rest

/-- Whether a line continuation divides an octal escape of a string. -/
def dividesOctal : List Char → Bool
  | [] => false
  | quote :: text => dividesFrom quote (.plain false false 0) text

example : dividesOctal "'\\1\\\n2'".toList = true := by cbv

/-! ## Joined strings -/

/-- Two values are equal unless an escape is divided; the joined one is shorter if one is. -/
def Agree (divided : Bool) (whole joined : List Nat) : Prop :=
  if divided then joined.length < whole.length else joined = whole

namespace Agree
variable {divided : Bool} {whole joined : List Nat}

theorem append (head : List Nat) (h : Agree divided whole joined) :
    Agree divided (head ++ whole) (head ++ joined) := by
  unfold Agree at h ⊢
  split
  · next hd =>
    rw [if_pos hd] at h
    simpa using h
  · next hd =>
    rw [if_neg hd] at h
    rw [h]

theorem cons (n : Nat) (h : Agree divided whole joined) :
    Agree divided (n :: whole) (n :: joined) := h.append [n]

theorem length_le (h : Agree divided whole joined) : joined.length ≤ whole.length := by
  unfold Agree at h
  split at h
  · exact Nat.le_of_lt h
  · rw [h]

theorem eq_iff (h : Agree divided whole joined) : joined = whole ↔ divided = false := by
  unfold Agree at h
  cases divided with
  | false => simpa using h
  | true =>
    rw [if_pos rfl] at h
    constructor
    · rintro rfl
      exact absurd h (Nat.lt_irrefl _)
    · intro hd
      cases hd

end Agree

/-- The text of a string and its joined form at corresponding places. Behind an octal escape that
ended at a continuation, the joined text still stands within the escape. -/
structure Joins (quote : Char) (text : List Char) : Prop where
  plain : ∀ feed cut, IsStringRest quote (.plain feed) text →
    Agree (dividesFrom quote (.plain feed cut 0) text) (valueFrom quote (.plain feed) text)
      (valueFrom quote (.plain false) (withoutContinuationsFrom (.plain feed) text))
  escape : IsStringRest quote .escape text →
    Agree (dividesFrom quote (.escape 0) text) (valueFrom quote .escape text)
      (valueFrom quote (.plain false) (withoutContinuationsFrom .escape text))
  octal : ∀ n more, IsStringRest quote (.plain false) text →
    Agree (dividesFrom quote (.plain false false more) text) (valueFrom quote (.octal n more) text)
      (valueFrom quote (.octal n more) (withoutContinuationsFrom (.plain false) text))
  cut : ∀ n more feed, IsStringRest quote (.plain feed) text →
    Agree (dividesFrom quote (.plain feed true more) text) (n :: valueFrom quote (.plain feed) text)
      (valueFrom quote (.octal n more) (withoutContinuationsFrom (.plain feed) text))
  cutEscape : ∀ n more, IsStringRest quote .escape text →
    Agree (dividesFrom quote (.escape more) text) (n :: valueFrom quote .escape text)
      (valueFrom quote (.octal n more) (withoutContinuationsFrom .escape text))
  hex : ∀ n more, IsStringRest quote (.hex more) text →
    Agree (dividesFrom quote (.plain false false 0) text) (valueFrom quote (.hex n more) text)
      (valueFrom quote (.hex n more) (withoutContinuationsFrom (.plain false) text))

theorem plain_backslash (quote : Char) (rest : List Char) :
    valueFrom quote (.plain false) ('\\' :: rest) = valueFrom quote .escape rest := rfl

/-- A backslash ends an octal escape. -/
theorem octal_backslash (quote : Char) (n more : Nat) (rest : List Char) :
    valueFrom quote (.octal n more) ('\\' :: rest) = n :: valueFrom quote .escape rest := rfl

theorem units_ne_nil (c : Char) : units c ≠ [] := by
  unfold units
  split <;> simp

/-! ### Steps -/

section
variable {quote c : Char} {text : List Char} {feed : Bool}

/-- The ways a string goes on among plain characters. -/
inductive PlainStep (quote : Char) (feed : Bool) (c : Char) (text : List Char) : Prop
  | feed : (feed && c == '\n') = true → IsStringRest quote (.plain false) text →
      PlainStep quote feed c text
  | escape : (feed && c == '\n') = false → (c == '\\') = true → IsStringRest quote .escape text →
      PlainStep quote feed c text
  | close : (feed && c == '\n') = false → (c == '\\') = false → (c == quote) = true → text = [] →
      PlainStep quote feed c text
  | char : (feed && c == '\n') = false → (c == '\\') = false → (c == quote) = false →
      IsStringRest quote (.plain false) text → PlainStep quote feed c text

theorem plainStep (h : IsStringRest quote (.plain feed) (c :: text)) :
    PlainStep quote feed c text := by
  by_cases h1 : (feed && c == '\n') = true
  · exact .feed h1 ((isStringRest_cons fun rest => by rw [stringFrom, if_pos h1]).mp h)
  by_cases h2 : Text.isLineBreak c = true
  · unfold IsStringRest at h
    rw [stringFrom, if_neg h1, if_pos h2] at h
    cases h
  by_cases h3 : (c == '\\') = true
  · refine .escape (by simpa using h1) h3 ((isStringRest_cons fun rest => ?_).mp h)
    rw [stringFrom, if_neg h1, if_neg h2, if_pos h3]
  by_cases h4 : (c == quote) = true
  · unfold IsStringRest at h
    rw [stringFrom, if_neg h1, if_neg h2, if_neg h3, if_pos h4] at h
    exact .close (by simpa using h1) (by simpa using h3) h4 (by simpa using h)
  · refine .char (by simpa using h1) (by simpa using h3) (by simpa using h4)
      ((isStringRest_cons fun rest => ?_).mp h)
    rw [stringFrom, if_neg h1, if_neg h2, if_neg h3, if_neg h4]

/-- The ways a string goes on behind a backslash. -/
inductive EscapeStep (quote c : Char) (text : List Char) : Prop
  | continuation : Text.isLineBreak c = true → IsStringRest quote (.plain (c == '\r')) text →
      EscapeStep quote c text
  | hex {more} : Text.isLineBreak c = false → (c == 'x') = true ∧ more = 1 ∨
      (c == 'x') = false ∧ (c == 'u') = true ∧ more = 3 → IsStringRest quote (.hex more) text →
      EscapeStep quote c text
  | octal : Text.isLineBreak c = false → (c == 'x') = false → (c == 'u') = false →
      isOctalDigit c = true → IsStringRest quote (.plain false) text → EscapeStep quote c text
  | char : Text.isLineBreak c = false → (c == 'x') = false → (c == 'u') = false →
      isOctalDigit c = false → IsStringRest quote (.plain false) text → EscapeStep quote c text

theorem escapeStep (h : IsStringRest quote .escape (c :: text)) : EscapeStep quote c text := by
  have hnext := (isStringRest_cons fun rest => by rw [stringFrom]).mp h
  by_cases hx : c = 'x'
  · subst hx
    exact .hex (by decide) (.inl ⟨rfl, rfl⟩) hnext
  by_cases hu : c = 'u'
  · subst hu
    exact .hex (by decide) (.inr ⟨rfl, rfl, rfl⟩) hnext
  have hx' : (c == 'x') = false := by simpa using hx
  have hu' : (c == 'u') = false := by simpa using hu
  rw [hx', hu'] at hnext
  by_cases hbreak : Text.isLineBreak c = true
  · exact .continuation hbreak hnext
  have hr : (c == '\r') = false := by
    by_contra hc
    obtain rfl : c = '\r' := by simpa using hc
    exact hbreak (by decide)
  rw [hr] at hnext
  by_cases hoctal : isOctalDigit c = true
  · exact .octal (by simpa using hbreak) hx' hu' hoctal hnext
  · exact .char (by simpa using hbreak) hx' hu' (by simpa using hoctal) hnext

theorem joins_plain (ih : Joins quote text) (cut : Bool)
    (h : IsStringRest quote (.plain feed) (c :: text)) :
    Agree (dividesFrom quote (.plain feed cut 0) (c :: text))
      (valueFrom quote (.plain feed) (c :: text))
      (valueFrom quote (.plain false) (withoutContinuationsFrom (.plain feed) (c :: text))) := by
  cases plainStep h with
  | feed h1 hrest =>
    simp only [dividesFrom, valueFrom, withoutContinuationsFrom, h1, if_true]
    exact ih.plain false cut hrest
  | escape h1 h2 hrest =>
    simp only [dividesFrom, valueFrom, withoutContinuationsFrom, h1, h2, if_true]
    exact ih.escape hrest
  | close h1 h2 h3 hrest =>
    subst hrest
    simp [dividesFrom, valueFrom, withoutContinuationsFrom, h1, h2, h3, Agree]
  | char h1 h2 h3 hrest =>
    simp only [dividesFrom, valueFrom, withoutContinuationsFrom, h1, h2, h3, Bool.false_and,
      Bool.false_eq_true, if_false, bne_self_eq_false]
    exact (ih.plain false false hrest).append _

/-- Behind a backslash that stays, the joined text goes on as the text does. -/
theorem joins_kept (ih : Joins quote text) (hbreak : Text.isLineBreak c = false)
    (h : IsStringRest quote .escape (c :: text)) (more : Nat) :
    Agree (dividesFrom quote (.escape more) (c :: text)) (valueFrom quote .escape (c :: text))
      (valueFrom quote .escape (c :: withoutContinuationsFrom (.plain false) text)) := by
  cases escapeStep h with
  | continuation h1 => simp [hbreak] at h1
  | hex _ hmark hrest =>
    have hoctal : isOctalDigit c = false := by
      rcases hmark with ⟨h1, -⟩ | ⟨-, h1, -⟩
      · obtain rfl : c = 'x' := by simpa using h1
        decide
      · obtain rfl : c = 'u' := by simpa using h1
        decide
    have hnext := fun n => ih.hex n _ hrest
    rcases hmark with ⟨h1, rfl⟩ | ⟨h1, h2, rfl⟩
    · simpa [dividesFrom, valueFrom, hbreak, hoctal, h1] using hnext 0
    · simpa [dividesFrom, valueFrom, hbreak, hoctal, h1, h2] using hnext 0
  | octal _ h1 h2 h3 hrest =>
    simpa [dividesFrom, valueFrom, hbreak, h1, h2, h3] using ih.octal _ _ hrest
  | char _ h1 h2 h3 hrest =>
    simpa [dividesFrom, valueFrom, hbreak, h1, h2, h3] using (ih.plain false false hrest).append _

theorem joins_escape (ih : Joins quote text) (h : IsStringRest quote .escape (c :: text)) :
    Agree (dividesFrom quote (.escape 0) (c :: text)) (valueFrom quote .escape (c :: text))
      (valueFrom quote (.plain false) (withoutContinuationsFrom .escape (c :: text))) := by
  by_cases hbreak : Text.isLineBreak c = true
  · cases escapeStep h with
    | continuation _ hrest =>
      simp only [dividesFrom, valueFrom, withoutContinuationsFrom, hbreak, if_true]
      exact ih.plain _ true hrest
    | hex h1 | octal h1 | char h1 => simp [hbreak] at h1
  · have hkept := joins_kept ih (by simpa using hbreak) h 0
    rwa [withoutContinuationsFrom, if_neg hbreak, plain_backslash]

theorem joins_cutEscape (ih : Joins quote text) (n more : Nat)
    (h : IsStringRest quote .escape (c :: text)) :
    Agree (dividesFrom quote (.escape more) (c :: text)) (n :: valueFrom quote .escape (c :: text))
      (valueFrom quote (.octal n more) (withoutContinuationsFrom .escape (c :: text))) := by
  by_cases hbreak : Text.isLineBreak c = true
  · cases escapeStep h with
    | continuation _ hrest =>
      simp only [dividesFrom, valueFrom, withoutContinuationsFrom, hbreak, if_true]
      exact ih.cut n more _ hrest
    | hex h1 | octal h1 | char h1 => simp [hbreak] at h1
  · rw [withoutContinuationsFrom, if_neg hbreak, octal_backslash]
    exact (joins_kept ih (by simpa using hbreak) h more).cons n

theorem joins_octal (ih : Joins quote text) (n more : Nat)
    (h : IsStringRest quote (.plain false) (c :: text)) :
    Agree (dividesFrom quote (.plain false false more) (c :: text))
      (valueFrom quote (.octal n more) (c :: text))
      (valueFrom quote (.octal n more) (withoutContinuationsFrom (.plain false) (c :: text))) := by
  cases plainStep h with
  | feed h1 => simp at h1
  | escape _ h1 hrest =>
    simp only [dividesFrom, valueFrom, withoutContinuationsFrom, h1, Bool.false_and,
      Bool.false_eq_true, if_false, if_true]
    exact ih.cutEscape n more hrest
  | close _ h1 h2 hrest =>
    subst hrest
    simp [dividesFrom, valueFrom, withoutContinuationsFrom, h1, h2, Agree]
  | char _ h1 h2 hrest =>
    by_cases hdigit : (more != 0 && isOctalDigit c) = true
    · simpa [dividesFrom, valueFrom, withoutContinuationsFrom, h1, h2, hdigit]
        using ih.octal (8 * n + octalValue c) (more - 1) hrest
    · have hrest := (ih.plain false false hrest).append (n :: units c)
      simpa [dividesFrom, valueFrom, withoutContinuationsFrom, h1, h2, hdigit] using hrest

theorem joins_cut (ih : Joins quote text) (n more : Nat)
    (h : IsStringRest quote (.plain feed) (c :: text)) :
    Agree (dividesFrom quote (.plain feed true more) (c :: text))
      (n :: valueFrom quote (.plain feed) (c :: text))
      (valueFrom quote (.octal n more) (withoutContinuationsFrom (.plain feed) (c :: text))) := by
  cases plainStep h with
  | feed h1 hrest =>
    simp only [dividesFrom, valueFrom, withoutContinuationsFrom, h1, if_true]
    exact ih.cut n more false hrest
  | escape h1 h2 hrest =>
    simp only [dividesFrom, valueFrom, withoutContinuationsFrom, h1, h2, if_true]
    exact ih.cutEscape n more hrest
  | close h1 h2 h3 hrest =>
    subst hrest
    simp [dividesFrom, valueFrom, withoutContinuationsFrom, h1, h2, h3, Agree]
  | char h1 h2 h3 hrest =>
    by_cases hdigit : (more != 0 && isOctalDigit c) = true
    · -- The escape takes a digit that was a character of its own.
      have hshort := (ih.cut (8 * n + octalValue c) (more - 1) false hrest).length_le
      have hunits := List.length_pos_iff.mpr (units_ne_nil c)
      simp only [List.length_cons] at hshort
      simp only [dividesFrom, valueFrom, withoutContinuationsFrom, h1, h2, h3, hdigit,
        Bool.false_eq_true, if_false, if_true, Bool.true_or, Agree,
        List.length_cons, List.length_append]
      omega
    · have hrest := (ih.plain false false hrest).append (n :: units c)
      simpa [dividesFrom, valueFrom, withoutContinuationsFrom, h1, h2, h3, hdigit] using hrest

theorem joins_hex (hquote : Text.isHexDigit quote = false) (ih : Joins quote text) (n more : Nat)
    (h : IsStringRest quote (.hex more) (c :: text)) :
    Agree (dividesFrom quote (.plain false false 0) (c :: text))
      (valueFrom quote (.hex n more) (c :: text))
      (valueFrom quote (.hex n more) (withoutContinuationsFrom (.plain false) (c :: text))) := by
  by_cases hc : Text.isHexDigit c = true
  · have h1 : (c == '\\') = false := by
      by_contra hne
      obtain rfl : c = '\\' := by simpa using hne
      revert hc
      decide
    have h2 : (c == quote) = false := by
      by_contra hne
      obtain rfl : c = quote := by simpa using hne
      simp [hquote] at hc
    cases more with
    | zero =>
      have hstep : ∀ rest, stringFrom quote (.hex 0) (c :: rest)
          = (stringFrom quote (.plain false) rest).cons c := fun rest => if_pos hc
      have hrest := (isStringRest_cons hstep).mp h
      have hnext := (ih.plain false false hrest).cons (16 * n + (Text.hexValue? c).getD 0)
      simpa [dividesFrom, valueFrom, withoutContinuationsFrom, h1, h2] using hnext
    | succ m =>
      have hstep : ∀ rest, stringFrom quote (.hex (m + 1)) (c :: rest)
          = (stringFrom quote (.hex m) rest).cons c := fun rest => if_pos hc
      have hrest := (isStringRest_cons hstep).mp h
      have hnext := ih.hex (16 * n + (Text.hexValue? c).getD 0) m hrest
      simpa [dividesFrom, valueFrom, withoutContinuationsFrom, h1, h2] using hnext
  · unfold IsStringRest at h
    have hproblem : stringFrom quote (.hex more) (c :: text) = .problem .invalidEscape [] :=
      if_neg hc
    rw [hproblem] at h
    cases h

end

theorem joins (quote : Char) (hquote : Text.isHexDigit quote = false) (text : List Char) :
    Joins quote text := by
  induction text with
  | nil =>
    constructor <;> intros <;> rename_i h <;> cases h
  | cons c text ih =>
    exact ⟨fun _ cut h => joins_plain ih cut h, joins_escape ih, joins_octal ih,
      fun n more _ h => joins_cut ih n more h, joins_cutEscape ih, joins_hex hquote ih⟩

/-! ## Compact strings -/

/-- A string written without its line continuations is a string again. It has the value of the one
it was made from just when no continuation divides an octal escape. -/
theorem value_withoutContinuations {s : String} (hquote : Lexer.opensString s.toList = true)
    (h : Literal.string s.toList = .token s.toList []) :
    Literal.string (withoutContinuations s).toList = .token (withoutContinuations s).toList []
      ∧ (value (withoutContinuations s).toList = value s.toList
          ↔ dividesOctal s.toList = false) := by
  rw [withoutContinuations, String.toList_ofList]
  refine ⟨(string_joined h hquote).1, ?_⟩
  cases htext : s.toList with
  | nil =>
    rw [htext] at h
    cases h
  | cons quote text =>
    rw [htext] at h hquote
    have hor : quote = '"' ∨ quote = '\'' := by simpa [Lexer.opensString] using hquote
    have hhex : Text.isHexDigit quote = false := by rcases hor with rfl | rfl <;> decide
    have hescape : (quote == '\\') = false := by rcases hor with rfl | rfl <;> decide
    obtain ⟨taken, htaken, hscan⟩ := cons_token h
    obtain rfl : text = taken := by simpa using htaken
    have hjoined : withoutContinuationsFrom (.plain false) (quote :: text)
        = quote :: withoutContinuationsFrom (.plain false) text := by
      rw [withoutContinuationsFrom, if_neg (by simp), if_neg (by simp [hescape])]
    rw [hjoined]
    exact ((joins quote hhex text).plain false false hscan).eq_iff

/-- Escapes that are full or of another sort are not divided. -/
theorem value_continued : Lexer.opensString "'\\101\\\r\n7\\x41\\\n1'".toList = true
    ∧ Literal.string "'\\101\\\r\n7\\x41\\\n1'".toList
        = .token "'\\101\\\r\n7\\x41\\\n1'".toList []
    ∧ value (withoutContinuations "'\\101\\\r\n7\\x41\\\n1'").toList
        = value "'\\101\\\r\n7\\x41\\\n1'".toList :=
  have hopens : Lexer.opensString "'\\101\\\r\n7\\x41\\\n1'".toList = true := by decide
  have hstring : Literal.string "'\\101\\\r\n7\\x41\\\n1'".toList
      = .token "'\\101\\\r\n7\\x41\\\n1'".toList [] := by decide
  ⟨hopens, hstring, (value_withoutContinuations hopens hstring).2.mpr (by decide)⟩

/-- A continuation behind a short octal escape keeps the digit after it out of the escape, and goes
in compact output: two characters become one. -/
theorem value_divided : Literal.string "'\\1\\\n2'".toList = .token "'\\1\\\n2'".toList []
    ∧ value "'\\1\\\n2'".toList = [1, 50]
    ∧ value (withoutContinuations "'\\1\\\n2'").toList = [10] := by
  decide

end ScriptPress.Literal
