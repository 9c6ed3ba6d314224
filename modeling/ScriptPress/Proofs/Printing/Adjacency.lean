import ScriptPress.Proofs.Lexical.Words

/-! # Tokens side by side

Most tokens can stand before any other, since the writer keeps them apart where they would glue. A
whole number cannot stand before a point, and a sign is only met by what an operand begins with.
-/
namespace ScriptPress

namespace Literal

/-- A number ends in a character of words or in a point. -/
theorem IsNumeral.last {t : List Char} (h : IsNumeral t) :
    ∀ c ∈ t.getLast?, touchesNumber c = true ∨ c = '.' := by
  intro c hc
  have hmem := List.mem_of_getLast? hc
  rcases h.chars c hmem with htouch | rfl | hsign
  · exact .inl htouch
  · exact .inr rfl
  -- A sign stands in an exponent, which goes on with digits.
  cases h with
  | @hex mark digits hm hd hall =>
    obtain ⟨b, digits, rfl⟩ := List.exists_cons_of_ne_nil hd
    rw [List.getLast?_cons_cons, List.getLast?_cons_cons] at hc
    exact .inl (touches_hex (hall c (List.mem_of_getLast? hc)))
  | octal _ hall => exact .inl (touches_digit (hall c hmem))
  | @decimal digits point power hparts _ _ =>
    rcases hparts.power with rfl | ⟨mark, signed, more, rfl, -, -, hne, hall⟩
    · rw [List.append_nil] at hmem
      rcases List.mem_append.mp hmem with hmem | hmem
      · exact .inl (touches_digit (hparts.digits c hmem))
      · rcases hparts.point with rfl | ⟨rest, rfl, hall⟩
        · cases hmem
        · rcases List.mem_cons.mp hmem with rfl | hmem
          · exact .inr rfl
          · exact .inl (touches_digit (hall c hmem))
    · obtain ⟨last, hl⟩ : ∃ last, more.getLast? = some last :=
        ⟨_, List.getLast?_eq_some_getLast hne⟩
      rw [← List.append_assoc, List.getLast?_append, hl] at hc
      obtain rfl : last = c := by simpa using hc
      exact .inl (touches_digit (hall last (List.mem_of_getLast? hl)))

end Literal

namespace Written
variable {d : Dialect} {t : Written} {text : List Char} {s : Sym} {kind : TokenKind}

/-- A token that the writer keeps apart from whatever it would glue to. -/
def Free (t : Written) : Prop := ∀ c, t.glues c = true → t.parts c = true

/-- A token that ends an expression: only a point may be too close to it. -/
def Ended (t : Written) : Prop := ∀ c, c ≠ '.' → t.glues c = true → t.parts c = true

/-- The characters that operands begin with. -/
def headsOperand (c : Char) : Bool :=
  Text.isIdentStart c || Text.isDigit c
    || ['\\', '.', '"', '\'', '/', '(', '[', '\x7b', '+', '-', '!', '~'].contains c

/-- A token that an operand can follow. -/
def Leads (t : Written) : Prop :=
  ∀ c, headsOperand c = true → t.glues c = true → t.parts c = true

theorem Free.ended (h : t.Free) : t.Ended := fun c _ => h c

theorem Free.leads (h : t.Free) : t.Leads := fun c _ => h c

theorem Free.meets (h : t.Free) (next : List Char) : t.Meets next := fun c _ => h c

theorem Ended.meets (h : t.Ended) {next : List Char} (hn : next.head? ≠ some '.') : t.Meets next := by
  intro c hc
  refine h c ?_
  rintro rfl
  exact hn hc

theorem Leads.meets (h : t.Leads) {next : List Char}
    (hn : ∀ c ∈ next.head?, headsOperand c = true) : t.Meets next := fun c hc => h c (hn c hc)

/-! ## Words, patterns and strings -/

theorem identPart_of_digit {c : Char} (h : Text.isDigit c = true) : Text.isIdentPart c = true := by
  have hcode : 48 ≤ c.toNat ∧ c.toNat ≤ 57 := by
    simpa [Text.isDigit, Char.le_def, UInt32.le_iff_toNat_le] using h
  have hranges : Text.numeric = (48, 57) :: Text.numeric.drop 1 := rfl
  have hnumeric : Text.isNumeric c = true := by
    rw [Text.isNumeric, hranges, Text.inRanges, if_neg (by omega)]
    simp [hcode.2]
  rw [Text.isIdentPart, hnumeric, Bool.or_true]

theorem isWordChar_of {c : Char} (h : Text.isIdentPart c = true ∨ Literal.touchesNumber c = true) :
    Writer.isWordChar c = true := by
  rcases h with h | h
  · rw [Writer.isWordChar, h, Bool.true_or]
  · simp only [Literal.touchesNumber, Bool.or_eq_true] at h
    rcases h with (h | h) | h
    · rw [Writer.isWordChar, Literal.identPart_of_start h, Bool.true_or]
    · rw [Writer.isWordChar, identPart_of_digit h, Bool.true_or]
    · rw [Writer.isWordChar, h, Bool.or_true]

theorem parts_of_last {last c : Char} (hl : t.text.getLast? = some last)
    (hc : Writer.isWordChar c = true)
    (h : Writer.isWordChar last = true ∨ t.kind = .regExp ∨ (t.kind = .number ∧ last = '.')) :
    t.parts c = true := by
  simp only [parts, hl, Option.any_some, Bool.or_eq_true, Bool.and_eq_true, beq_iff_eq]
  rcases h with h | h | h
  · exact .inl ⟨hc, .inl (.inl h)⟩
  · exact .inl ⟨hc, .inl (.inr h)⟩
  · exact .inl ⟨hc, .inr h⟩

theorem last_of_ne {text : List Char} (h : text ≠ []) : ∃ last, text.getLast? = some last := by
  cases hl : text.getLast? with
  | none => exact absurd (List.getLast?_eq_none_iff.mp hl) h
  | some last => exact ⟨last, rfl⟩

theorem free_pattern (h : Lexer.IsPattern d text) : (Written.mk .regExp text).Free := by
  intro c hc
  have hword : Writer.isWordChar c = true := isWordChar_of (.inl hc)
  obtain ⟨-, body, rfl, -⟩ := h
  obtain ⟨last, hl⟩ := last_of_ne (List.cons_ne_nil '/' body)
  exact parts_of_last hl hword (.inr (.inl rfl))

/-- The sorts of lexemes by their first characters. -/
theorem free_word (h : Lexer.IsLexeme d text s) (hn : Lexer.opensNumber text = false)
    (hw : Lexer.opensWord text = true) : (Written.mk .plain text).Free := by
  intro c hc
  have hgoes : Literal.wordGoesOn c = true := by
    simpa [glues, Lexer.glues, hn, hw] using hc
  obtain ⟨b, hb, hl⟩ := h
  rw [Lexer.lexeme_eq hb, if_neg (by simp [hn]), if_pos hw] at hl
  obtain ⟨w, hword, -, htaken, -⟩ := Lexer.wordLexeme_ok hl
  have hchars := (Literal.wordFrom_isWord hword).chars
  rw [htaken] at hchars
  obtain ⟨last, hlast⟩ := last_of_ne (show text ≠ [] by rintro rfl; cases hb)
  exact parts_of_last hlast hgoes (.inl (isWordChar_of (hchars last (List.mem_of_getLast? hlast))))

theorem free_string (hn : Lexer.opensNumber text = false) (hw : Lexer.opensWord text = false)
    (hs : Lexer.opensString text = true) : (Written.mk .plain text).Free := by
  intro c hc
  simp [glues, Lexer.glues, hn, hw, hs] at hc

/-! ## Numbers -/

theorem parts_number (h : Literal.IsNumeral text) (hne : text ≠ []) {c : Char}
    (hc : Literal.touchesNumber c = true) : (Written.mk .number text).parts c = true := by
  obtain ⟨last, hl⟩ := last_of_ne hne
  refine parts_of_last hl (isWordChar_of (.inr hc)) ?_
  rcases h.last last hl with h | rfl
  · exact .inl (isWordChar_of (.inr h))
  · exact .inr (.inr ⟨rfl, rfl⟩)

theorem ended_number (h : Literal.IsNumeral text) (hne : text ≠ [])
    (hn : Lexer.opensNumber text = true) : (Written.mk .number text).Ended := by
  intro c hdot hc
  refine parts_number h hne ?_
  simpa [glues, Lexer.glues, hn, hdot] using hc

/-- A number that is more than digits can stand before a point. -/
theorem free_number (h : Literal.IsNumeral text) (hne : text ≠ [])
    (hn : Lexer.opensNumber text = true) (hwhole : text.all Text.isDigit = false) :
    (Written.mk .number text).Free := by
  intro c hc
  refine parts_number h hne ?_
  simpa [glues, Lexer.glues, hn, hwhole] using hc

/-! ## Signs -/

/-- The beginnings of signs and of comments. -/
def marks : List (List Char) := Punctuator.table.map Punctuator.spelling ++ Lexer.commentMarks

theorem marks_chars : ∀ m ∈ marks, ∀ c ∈ m, Text.isIdentStart c = false ∧ Text.isDigit c = false
    ∧ c ≠ '\\' := by
  have hall : ∀ m ∈ marks, m.all (fun c => !Text.isIdentStart c && !Text.isDigit c && c != '\\')
      = true := by
    decide
  intro m hm c hc
  simpa [and_assoc] using List.all_eq_true.mp (hall m hm) c hc

theorem glues_sign {p : Punctuator} (hp : p ∈ Punctuator.table) (c : Char) :
    (Written.mk .plain p.spelling).glues c = Lexer.signGoesOn p.spelling c := by
  obtain ⟨-, hn, hw, hs⟩ := Lexer.sign_opens p hp
  simp [glues, Lexer.glues, hn, hw, hs]

/-- The characters behind which signs go on. -/
theorem goesOn_chars {sign : List Char} {c : Char} (h : Lexer.signGoesOn sign c = true)
    (hdot : sign ≠ ['.']) : ∃ m ∈ marks, (sign ++ [c]).isPrefixOf m = true := by
  simp only [Lexer.signGoesOn, Bool.or_eq_true, List.any_eq_true, Bool.and_eq_true, beq_iff_eq] at h
  rcases h with h | ⟨h, -⟩
  · exact h
  · exact absurd h hdot

/-- The characters that operands begin with, but for those of words and numbers. -/
def operandMarks : List Char := ['.', '"', '\'', '/', '(', '[', '\x7b', '+', '-', '!', '~']

/-- A sign that goes on to a longer one is kept apart from the character it goes on with. -/
theorem sign_parts : ∀ p ∈ Punctuator.table, p.spelling ≠ ['.'] → ∀ m ∈ marks,
    p.spelling.isPrefixOf m = true → ∀ c ∈ (m.drop p.spelling.length).head?, c ∈ operandMarks →
      (Written.mk .plain p.spelling).parts c = true := by
  have hall : ∀ p ∈ Punctuator.table, p.spelling ≠ ['.'] → marks.all (fun m =>
      !p.spelling.isPrefixOf m || (m.drop p.spelling.length).head?.all fun c =>
        !operandMarks.contains c || (Written.mk .plain p.spelling).parts c) = true := by
    decide +kernel
  intro p hp hdot m hm hlonger c hc hmem
  have hchecked := List.all_eq_true.mp (hall p hp hdot) m hm
  rw [hlonger, Option.mem_def.mp hc] at hchecked
  simpa [hmem] using hchecked

theorem leads_sign {p : Punctuator} (hp : p ∈ Punctuator.table) (hdot : p.spelling ≠ ['.']) :
    (Written.mk .plain p.spelling).Leads := by
  intro c hc hglues
  rw [glues_sign hp] at hglues
  obtain ⟨m, hm, hprefix⟩ := goesOn_chars hglues hdot
  have hlonger := List.isPrefixOf_iff_prefix.mp hprefix
  obtain ⟨hstart, hdigit, hescape⟩ := marks_chars m hm c (hlonger.subset (by simp))
  obtain ⟨rest, rfl⟩ := hlonger
  refine sign_parts p hp hdot _ hm ?_ c ?_ ?_
  · exact List.isPrefixOf_iff_prefix.mpr ⟨[c] ++ rest, by simp⟩
  · simp
  · simpa [headsOperand, hstart, hdigit, hescape, operandMarks] using hc

/-- The signs that stand alone, and the steps. -/
theorem free_sign {p : Punctuator} (hp : p ∈ Punctuator.table)
    (h : p.tag ∈ [Tag.leftParen, .rightParen, .leftBracket, .rightBracket, .leftBrace, .rightBrace,
      .semicolon, .comma, .colon, .question, .increment, .decrement]) :
    (Written.mk .plain p.spelling).Free := by
  have halone : ∀ p ∈ Punctuator.table, p.tag ∈ [Tag.leftParen, .rightParen, .leftBracket,
      .rightBracket, .leftBrace, .rightBrace, .semicolon, .comma, .colon, .question, .increment,
      .decrement] → p.spelling ≠ ['.'] ∧ ∀ m ∈ marks, p.spelling.isPrefixOf m = true →
        m = p.spelling ∨ (p.spelling = ['-', '-'] ∧ m = ['-', '-', '>']) := by
    decide
  intro c hglues
  rw [glues_sign hp] at hglues
  obtain ⟨hdot, hmarks⟩ := halone p hp h
  obtain ⟨m, hm, hprefix⟩ := goesOn_chars hglues hdot
  obtain ⟨rest, rfl⟩ := List.isPrefixOf_iff_prefix.mp hprefix
  have hshort : p.spelling.isPrefixOf (p.spelling ++ [c] ++ rest) = true :=
    List.isPrefixOf_iff_prefix.mpr ⟨[c] ++ rest, by simp⟩
  rcases hmarks _ hm hshort with hsame | ⟨hdashes, hmark⟩
  · simp at hsame
  · rw [hdashes] at hmark ⊢
    obtain ⟨rfl, rfl⟩ : c = '>' ∧ rest = [] := by simpa using hmark
    rfl

/-! ## Sorts of tokens -/

/-- The sort of a lexeme, by its first character. -/
inductive LexemeSort (text : List Char) (s : Sym) : Prop
  | number : s.tag = .number → Literal.IsNumeral text → Lexer.opensNumber text = true →
      LexemeSort text s
  | word : (s.text ≠ none → s.tag = .identifier ∨ s.tag = .reserved) →
      Lexer.opensNumber text = false → Lexer.opensWord text = true → LexemeSort text s
  | string : s.tag = .string → Lexer.opensNumber text = false → Lexer.opensWord text = false →
      Lexer.opensString text = true → LexemeSort text s
  | sign {p} : p ∈ Punctuator.table → text = p.spelling → s = ⟨p.tag, p.datum, none⟩ → LexemeSort text s

theorem sort_of_lexeme (h : Lexer.IsLexeme d text s) : LexemeSort text s := by
  obtain ⟨c, hc, hl⟩ := h
  rw [Lexer.lexeme_eq hc] at hl
  by_cases hn : Lexer.opensNumber text = true
  · rw [if_pos hn] at hl
    obtain ⟨hscan, rfl⟩ := Lexer.literal_ok hl
    exact .number rfl (Literal.number_token hscan).2.1 hn
  rw [if_neg hn] at hl
  by_cases hw : Lexer.opensWord text = true
  · rw [if_pos hw] at hl
    obtain ⟨w, -, hs, -, -⟩ := Lexer.wordLexeme_ok hl
    exact .word hs.worded (by simpa using hn) hw
  rw [if_neg hw] at hl
  by_cases hs : Lexer.opensString text = true
  · rw [if_pos hs] at hl
    obtain ⟨-, rfl⟩ := Lexer.literal_ok hl
    exact .string rfl (by simpa using hn) (by simpa using hw) hs
  · rw [if_neg hs] at hl
    obtain ⟨p, hp, -, hsym, htext, -⟩ := Lexer.signLexeme_ok hl
    exact .sign (Lexer.longest_splits hp).1 htext hsym

theorem genuine_plain (h : Lexer.IsLexeme d text s) : (Written.mk .plain text).Genuine d := by
  have hsym : (Written.mk .plain text).sym d = s := classify_of h
  rw [Genuine, hsym]
  exact h

theorem genuine_number (h : Lexer.IsLexeme d text s) : (Written.mk .number text).Genuine d := by
  have hsym : (Written.mk .number text).sym d = s := classify_of h
  rw [Genuine, hsym]
  exact h

theorem headsOperand_word (h : Lexer.opensWord text = true) :
    ∀ c ∈ text.head?, headsOperand c = true := by
  intro c hc
  rw [Lexer.opensWord, Option.mem_def.mp hc] at h
  simp only [Option.any_some, Bool.or_eq_true, beq_iff_eq] at h
  rcases h with h | rfl
  · simp [headsOperand, h]
  · simp [headsOperand]

theorem headsOperand_number (h : Lexer.opensNumber text = true) :
    ∀ c ∈ text.head?, headsOperand c = true := by
  intro c hc
  rw [Lexer.opensNumber, Option.mem_def.mp hc] at h
  simp only [Option.any_some, Bool.or_eq_true, Bool.and_eq_true, beq_iff_eq, Option.some.injEq] at h
  rcases h with h | ⟨rfl, -⟩
  · simp [headsOperand, h]
  · simp [headsOperand]

theorem headsOperand_string (h : Lexer.opensString text = true) :
    ∀ c ∈ text.head?, headsOperand c = true := by
  intro c hc
  rw [Lexer.opensString, Option.mem_def.mp hc] at h
  simp only [Option.any_some, Bool.or_eq_true, beq_iff_eq] at h
  rcases h with rfl | rfl <;> simp [headsOperand]

end Written
end ScriptPress
