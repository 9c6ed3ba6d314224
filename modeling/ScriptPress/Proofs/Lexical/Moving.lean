import ScriptPress.Proofs.Lexical.Next

/-! # Lexemes before other texts

A lexeme is read again when the text behind it changes, as long as the new text agrees with the old
one up to a bar: a blank, a line break or a semicolon, which no token goes on with. Nor does a
comment open there that did not open before.
-/
namespace ScriptPress

namespace Lexer

/-- The characters that no token goes on with. -/
def isBar (c : Char) : Bool := isSpace c || c == ';'

/-- A text agrees with an old one up to a bar or its end. -/
def Follows (old text : List Char) : Prop :=
  ∃ common rest rest', old = common ++ rest ∧ text = common ++ rest'
    ∧ ∀ c ∈ rest'.head?, isBar c = true

theorem Follows.refl (text : List Char) : Follows text text :=
  ⟨text, [], [], by simp, by simp, by simp⟩

theorem Follows.append {old text : List Char} (h : Follows old text) (head : List Char) :
    Follows (head ++ old) (head ++ text) := by
  obtain ⟨common, rest, rest', rfl, rfl, hbar⟩ := h
  exact ⟨head ++ common, rest, rest', by simp, by simp, hbar⟩

theorem Follows.head {old text : List Char} (h : Follows old text) :
    ∀ c ∈ text.head?, old.head? = some c ∨ isBar c = true := by
  obtain ⟨common, rest, rest', rfl, rfl, hbar⟩ := h
  intro c hc
  cases common with
  | nil => exact .inr (hbar c (by simpa using hc))
  | cons b common => exact .inl (by simpa using hc)

/-- What begins a text behind a token began the old one, if no bar is in it but at its head. -/
theorem Follows.starts {old text taken mark : List Char} (h : Follows old text) (hne : taken ≠ [])
    (hmark : ∀ c ∈ mark.tail, isBar c = false) (hm : mark <+: taken ++ text) :
    mark <+: taken ++ old := by
  obtain ⟨common, rest, rest', rfl, rfl, hbar⟩ := h
  rw [← List.append_assoc] at hm ⊢
  rcases List.prefix_or_prefix_of_prefix hm (List.prefix_append _ _) with hle | ⟨more, rfl⟩
  · exact hle.trans (List.prefix_append _ _)
  · cases more with
    | nil => simp
    | cons c more =>
      obtain ⟨after, rfl⟩ := (List.prefix_append_right_inj _).mp hm
      have hc : c ∈ (taken ++ common ++ c :: more).tail := by
        rw [List.tail_append_of_ne_nil (by simp [hne])]
        simp
      have hyes : isBar c = true := hbar c rfl
      rw [hmark c hc] at hyes
      cases hyes

theorem bar_classes {c : Char} (h : isBar c = true) :
    Literal.touchesNumber c = false ∧ c ≠ '.' ∧ Literal.wordGoesOn c = false
      ∧ Text.isIdentPart c = false := by
  have hword : ∀ c, Text.isIdentPart c = false → c ≠ '\\' → Literal.wordGoesOn c = false := by
    intro c hpart hslash
    simp [Literal.wordGoesOn, hpart, hslash]
  rcases (by simpa [isBar] using h : isSpace c = true ∨ c = ';') with hspace | rfl
  · have hnumber : Literal.touchesNumber c = false :=
      Bool.eq_false_iff.mpr fun ht => by simp [touching_not_space ht] at hspace
    have hpart : Text.isIdentPart c = false :=
      Bool.eq_false_iff.mpr fun ht => by simp [identPart_not_space ht] at hspace
    refine ⟨hnumber, ?_, hword c hpart ?_, hpart⟩
    · rintro rfl
      revert hspace
      decide
    · rintro rfl
      revert hspace
      decide
  · decide

theorem sign_bars : ∀ m ∈ Punctuator.table.map Punctuator.spelling ++ commentMarks,
    ∀ c ∈ m.tail, isBar c = false := by
  have hall : ∀ m ∈ Punctuator.table.map Punctuator.spelling ++ commentMarks,
      m.tail.all (!isBar ·) = true := by
    decide
  intro m hm c hc
  simpa using List.all_eq_true.mp (hall m hm) c hc

end Lexer

namespace Literal

/-- A decimal number takes the point behind its digits. -/
theorem decimal_no_dot {taken rest : List Char} (h : decimal (taken ++ rest) = .token taken rest)
    (hall : ∀ c ∈ taken, Text.isDigit c = true) : Ends (· == '.') rest := by
  intro c hc
  by_contra hdot
  obtain ⟨more, rfl⟩ : ∃ more, rest = '.' :: more := by
    cases rest with
    | nil => cases hc
    | cons b more =>
      obtain rfl : b = c := by simpa using hc
      exact ⟨more, by rw [show b = '.' by simpa using hdot]⟩
  have hends : Ends Text.isDigit ('.' :: more) := ends_cons.mpr (by decide)
  have hdrop : (taken ++ '.' :: more).dropWhile Text.isDigit = '.' :: more := by
    rw [dropWhile_append_of_ends hends, dropWhile_eq_nil hall, List.nil_append]
  have htake : (taken ++ '.' :: more).takeWhile Text.isDigit = taken := by
    rw [takeWhile_append_of_ends hends, takeWhile_eq_self hall]
  simp only [decimal, hdrop, htake, fraction] at h
  obtain ⟨power, hpower, -⟩ := exponent_token h
  simp at hpower

/-- A number is read again before a text that goes on as the old one did, or does not touch it. -/
theorem number_moves {taken rest rest' : List Char} (h : number (taken ++ rest) = .token taken rest)
    (hhead : ∀ c ∈ rest'.head?, rest.head? = some c ∨ touchesNumber c = false ∧ c ≠ '.') :
    number (taken ++ rest') = .token taken rest' := by
  obtain ⟨-, hshape, hends, -⟩ := number_token h
  have hends' : Ends touchesNumber rest' := fun c hc =>
    (hhead c hc).elim (fun hc => hends c hc) And.left
  have hnumeral : numeral (taken ++ rest) = .token taken rest := by
    simp only [number] at h
    split at h
    · split at h
      · cases h
      · next hn _ => rw [hn, h]
    · next hn => exact absurd h (hn _ _)
  -- only an octal number leaves a point behind it alone
  by_cases hoctal : opensOctal taken = true ∧ ∀ c ∈ taken, Text.isDigit c = true
  · have hdigit : Ends Text.isDigit rest' := hends'.mono fun c => touches_digit
    have hself : numeral (taken ++ rest') = .token taken rest' := by
      rw [numeral_octal (by rw [opensOctal_append hends', hoctal.1]),
        takeWhile_append_of_ends hdigit, dropWhile_append_of_ends hdigit,
        takeWhile_eq_self hoctal.2, dropWhile_eq_nil hoctal.2, List.nil_append]
    have hno : rest'.head?.any touchesNumber = false := by
      rw [Option.any_eq_false]
      exact fun c hc => by simpa using hends' c hc
    simp [number, hself, hno]
  · refine number_append hshape ⟨hends', fun hall c hc => ?_⟩
    have hdigits : ∀ c ∈ taken, Text.isDigit c = true := List.all_eq_true.mp hall
    rcases hhead c hc with hold | ⟨-, hdot⟩
    · have hx : opensZero isHexMark (taken ++ rest) = false := by
        rw [opensZero_append (hends.mono fun c => touches_hexMark) hends, Bool.eq_false_iff]
        intro hzero
        obtain ⟨mark, more, rfl, hmark⟩ := opensZero_iff.mp hzero
        have hdigit := hdigits mark (by simp)
        have hcases : mark = 'x' ∨ mark = 'X' := by simpa [isHexMark] using hmark
        rcases hcases with rfl | rfl <;> exact absurd hdigit (by decide)
      have ho : opensOctal (taken ++ rest) = false := by
        rw [opensOctal_append hends]
        exact Bool.eq_false_iff.mpr fun ho => hoctal ⟨ho, hdigits⟩
      rw [numeral_decimal hx ho] at hnumeral
      exact decimal_no_dot hnumeral hdigits c hold
    · simpa using hdot

end Literal

namespace Lexer
variable {d : Dialect} {taken rest rest' : List Char} {s : Sym}

/-- A point alone is no number, before the old text and before the new one. -/
theorem opensNumber_moves {c : Char} (hne : taken ≠ []) (hc : (taken ++ rest).head? = some c)
    (h : lexeme d c (taken ++ rest) = .ok (.of s taken rest)) (hf : Follows rest rest') :
    opensNumber (taken ++ rest') = opensNumber (taken ++ rest) := by
  by_cases hdot : taken = ['.']
  · subst hdot
    have hdigits : ∀ text, opensNumber (['.'] ++ text) = text.head?.any Text.isDigit := by
      intro text
      have hpoint : Text.isDigit '.' = false := by decide
      simp [opensNumber, hpoint]
    have hold : opensNumber (['.'] ++ rest) = false := by
      by_contra hopens
      simp only [Bool.not_eq_false] at hopens
      rw [lexeme_eq hc, if_pos hopens] at h
      obtain ⟨-, -, hends, -⟩ := Literal.number_token (literal_ok h).1
      rw [hdigits] at hopens
      cases rest with
      | nil => cases hopens
      | cons b rest =>
        have htouches := Literal.touches_digit (by simpa using hopens : Text.isDigit b = true)
        rw [Literal.ends_cons.mp hends] at htouches
        cases htouches
    rw [hold, hdigits]
    rw [hdigits] at hold
    cases rest' with
    | nil => rfl
    | cons b rest' =>
      rcases hf.head b rfl with hb | hbar
      · simpa [hb] using hold
      · refine Bool.eq_false_iff.mpr fun hdigit => ?_
        have htouches := Literal.touches_digit (by simpa using hdigit : Text.isDigit b = true)
        rw [(bar_classes hbar).1] at htouches
        cases htouches
  · rw [opensNumber_append hne fun h => absurd h hdot, opensNumber_append hne fun h => absurd h hdot]

/-- The longest sign stays the longest. -/
theorem longest_moves {p : Punctuator} (hp : Punctuator.longest? (p.spelling ++ rest) = some p)
    (hf : Follows rest rest') : Punctuator.longest? (p.spelling ++ rest') = some p := by
  have hne := (sign_opens p (longest_splits hp).1).1
  rw [Punctuator.longest?, List.find?_eq_some_iff_append] at hp ⊢
  obtain ⟨-, before, after, htable, hbefore⟩ := hp
  refine ⟨List.isPrefixOf_iff_prefix.mpr (List.prefix_append _ _), before, after, htable, ?_⟩
  intro q hq
  have hmem : q ∈ Punctuator.table := htable ▸ List.mem_append_left _ hq
  have hbars := sign_bars q.spelling (List.mem_append_left _ (List.mem_map_of_mem hmem))
  have hold := hbefore q hq
  rw [Bool.not_eq_true'] at hold ⊢
  refine Bool.eq_false_iff.mpr fun hnew => ?_
  have hstarts := hf.starts hne hbars (List.isPrefixOf_iff_prefix.mp hnew)
  rw [List.isPrefixOf_iff_prefix.mpr hstarts] at hold
  cases hold

/-- A lexeme is read again before a text that follows the old one. -/
theorem lexeme_moves {c : Char} (hc : (taken ++ rest).head? = some c)
    (h : lexeme d c (taken ++ rest) = .ok (.of s taken rest)) (hf : Follows rest rest') :
    lexeme d c (taken ++ rest') = .ok (.of s taken rest') := by
  obtain ⟨-, hne, -⟩ := lexeme_ok hc h
  have hc' : taken.head? = some c := by
    cases taken with
    | nil => exact absurd rfl hne
    | cons b taken => simpa using hc
  rw [lexeme_eq (head_append hc'), opensNumber_moves hne hc h hf, opensWord_append hne,
    opensString_append hne]
  rw [lexeme_eq hc, opensWord_append hne, opensString_append hne] at h
  by_cases hn : opensNumber (taken ++ rest) = true
  · rw [if_pos hn] at h ⊢
    obtain ⟨hscan, rfl⟩ := literal_ok h
    have hmoved := Literal.number_moves hscan fun c hc =>
      (hf.head c hc).imp_right fun hbar => ⟨(bar_classes hbar).1, (bar_classes hbar).2.1⟩
    rw [hmoved]
    rfl
  rw [if_neg hn] at h ⊢
  by_cases hw : opensWord taken = true
  · rw [if_pos hw] at h ⊢
    obtain ⟨w, hword, hs, rfl, rfl⟩ := wordLexeme_ok h
    have hisWord := Literal.wordFrom_isWord hword
    have hends : Literal.Ends Literal.wordGoesOn rest' := fun c hc =>
      (hf.head c hc).elim (hisWord.ends c) fun hbar => (bar_classes hbar).2.2.1
    exact wordLexeme_of (hisWord.moves rest' hends) hs
  rw [if_neg hw] at h ⊢
  by_cases hq : opensString taken = true
  · rw [if_pos hq] at h ⊢
    obtain ⟨hscan, rfl⟩ := literal_ok h
    obtain ⟨-, -, -, hall⟩ := Literal.string_token hscan
    rw [hall rest']
    rfl
  · rw [if_neg hq] at h ⊢
    obtain ⟨p, hp, hstrict, rfl, rfl, -⟩ := signLexeme_ok h
    simp only [signLexeme, longest_moves hp hf, hstrict, Bool.false_eq_true, if_false,
      List.drop_left]
    rfl

/-- A pattern is read again before a text that follows the old one. -/
theorem regExp_moves (h : Literal.regExp (taken ++ rest) = .token taken rest)
    (hf : Follows rest rest') : Literal.regExp (taken ++ rest') = .token taken rest' := by
  obtain ⟨-, hends, -, hall⟩ := Literal.regExp_token h
  exact hall rest' fun c hc => (hf.head c hc).elim (hends c) fun hbar => (bar_classes hbar).2.2.2

end Lexer

namespace Gap

/-- A token that ended a gap ends it before a text that follows the old one, unless it begins with
`-->` and no token has begun on the line now. -/
theorem Stops.moves {taken rest rest' : List Char} {fresh fresh' : Bool} (hne : taken ≠ [])
    (h : Stops fresh (taken ++ rest)) (hf : Lexer.Follows rest rest')
    (harrow : fresh' = true → fresh = true ∨ ¬ "-->".toList <+: taken ++ rest) :
    Stops fresh' (taken ++ rest') := by
  have hmarks : ∀ m ∈ Lexer.commentMarks, m.isPrefixOf (taken ++ rest) = false →
      m.isPrefixOf (taken ++ rest') = false := by
    intro m hm hold
    refine Bool.eq_false_iff.mpr fun hnew => ?_
    have hbars := Lexer.sign_bars m (List.mem_append_right _ hm)
    have hstarts := hf.starts hne hbars (List.isPrefixOf_iff_prefix.mp hnew)
    rw [List.isPrefixOf_iff_prefix.mpr hstarts] at hold
    cases hold
  obtain ⟨hspace, hline, hblock⟩ := h
  simp only [opensLineComment, Bool.or_eq_false_iff, Bool.and_eq_false_iff] at hline
  obtain ⟨⟨hslashes, hangle⟩, hdashes⟩ := hline
  refine ⟨?_, ?_, hmarks _ (by decide) hblock⟩
  · intro c hc
    cases taken with
    | nil => exact absurd rfl hne
    | cons b taken => exact hspace c hc
  · simp only [opensLineComment, Bool.or_eq_false_iff, Bool.and_eq_false_iff]
    refine ⟨⟨hmarks _ (by decide) hslashes, hmarks _ (by decide) hangle⟩, ?_⟩
    by_cases hfresh : fresh' = true
    · refine .inr (hmarks _ (by decide) ?_)
      rcases harrow hfresh with hold | hno
      · exact hdashes.resolve_left (by simp [hold])
      · exact Bool.eq_false_iff.mpr fun hp => hno (List.isPrefixOf_iff_prefix.mp hp)
    · exact .inl (by simpa using hfresh)

/-- A text that does not go on with a gap is left as it is. -/
theorem Stops.scanFrom {fresh : Bool} {text : List Char} (h : Stops fresh text) :
    scanFrom (.between fresh) text = ⟨[], none, text⟩ := by
  cases text with
  | nil => rfl
  | cons c text =>
    rw [Gap.scanFrom, ← Lexer.isSpace, if_neg (by simp [h.space c rfl]), if_neg (by simp [h.line]),
      if_neg (by simp [h.block])]

end Gap
end ScriptPress
