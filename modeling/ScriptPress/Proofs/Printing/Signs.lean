import ScriptPress.Proofs.Printing.Adjacency
import ScriptPress.Proofs.Shape.Formed

/-! # Signs and words as they are written

The signs and keywords that every dialect has, and what may stand beside each sort of token.
-/
namespace ScriptPress

namespace Lexer
variable {d : Dialect} {tag : Tag} {datum : Option Tag}

theorem isSign_punctuator {p : Punctuator} (hp : p ∈ Punctuator.table) (hs : isStrict p = false) :
    IsSign d p.tag p.datum := by
  rw [IsSign, sign_spelling p hp]
  exact isLexeme_sign hp (by rw [hs, Bool.false_and])

theorem keyword_word : ∀ k ∈ Keyword.table, k.since = .v10 → ∀ d : Dialect,
    keyword? k.word d = some (k.tag, k.datum) := by
  intro k hk hs d
  revert k
  cases d <;> decide

theorem keyword_chars : ∀ k ∈ Keyword.table, (∃ c ∈ k.word.toList.head?,
    Text.isIdentStart c = true) ∧ ∀ c ∈ k.word.toList, Text.isIdentPart c = true := by
  have hall : ∀ k ∈ Keyword.table, k.word.toList.head?.any Text.isIdentStart = true
      ∧ k.word.toList.all Text.isIdentPart = true := by
    decide
  intro k hk
  obtain ⟨hhead, hparts⟩ := hall k hk
  constructor
  · simpa [Option.any_eq_true] using hhead
  · exact List.all_eq_true.mp hparts

theorem isSign_keyword {k : Keyword} (hk : k ∈ Keyword.table) (hs : k.since = .v10) :
    IsSign d k.tag k.datum := by
  obtain ⟨hne, hspell⟩ := keyword_spelling k hk
  obtain ⟨hstart, hall⟩ := keyword_chars k hk
  have hword : WordSym d k.word false ⟨k.tag, k.datum, none⟩ := by
    have hsym := WordSym.keyword (keyword_word k hk hs d) (rfl : false = false)
    rwa [if_neg (by simpa using hne)] at hsym
  rw [IsSign, hspell]
  exact isLexeme_name hstart hall (by rwa [String.ofList_toList])

/-- The signs and keywords that every dialect has. -/
def everywhere : List Tag :=
  [.leftParen, .rightParen, .leftBracket, .rightBracket, .leftBrace, .rightBrace, .semicolon,
   .comma, .colon, .question, .dot, .assign, .increment, .decrement, .kwFunction, .kwVar, .kwIf,
   .kwElse, .kwWhile, .kwFor, .kwIn, .kwWith, .kwNew, .kwReturn, .kwBreak, .kwContinue]

theorem isSign_everywhere (h : tag ∈ everywhere) : IsSign d tag none := by
  have hcases : ∀ tag ∈ everywhere,
      (∃ p ∈ Punctuator.table, p.tag = tag ∧ p.datum = none ∧ isStrict p = false)
        ∨ ∃ k ∈ Keyword.table, k.tag = tag ∧ k.datum = none ∧ k.since = .v10 := by
    decide
  rcases hcases tag h with ⟨p, hp, rfl, hdatum, hs⟩ | ⟨k, hk, rfl, hdatum, hs⟩
  · rw [← hdatum]
    exact isSign_punctuator hp hs
  · rw [← hdatum]
    exact isSign_keyword hk hs

/-- The tags of all signs and keywords. -/
def signs : List (Tag × Option Tag) :=
  Punctuator.table.map (fun p => (p.tag, p.datum)) ++ Keyword.table.map fun k => (k.tag, k.datum)

theorem isSign_listed (h : IsSign d tag datum) : (tag, datum) ∈ signs := by
  obtain ⟨c, hc, hl⟩ := h
  have hsym : ∀ s : Sym, s.text = none → Kind d (Sym.mk tag datum none).spelling.toList s →
      (s.tag, s.datum) ∈ signs := by
    intro s hs hkind
    cases hkind with
    | number | string => cases hs
    | sign hp => exact List.mem_append.mpr (.inl (List.mem_map_of_mem hp))
    | word hword =>
      cases hword with
      | identifier => cases hs
      | keyword hk =>
        simp only [keyword?] at hk
        split at hk
        · next k hfind =>
          rw [← Option.some.inj hk]
          exact List.mem_append.mpr (.inr (List.mem_map_of_mem (List.mem_of_find?_eq_some hfind)))
        · split at hk
          · obtain ⟨rfl, rfl⟩ := Prod.mk.inj (Option.some.inj hk)
            cases hs
          · cases hk
  exact hsym _ rfl (lexeme_kind hc hl)

end Lexer

open Lexer

/-- The text of a sign. -/
def signText (tag : Tag) (datum : Option Tag) : String := (Sym.mk tag datum none).spelling

/-- The keywords without a datum begin as words do. -/
theorem keyword_opens {tag : Tag} (h : tag ∈ Keyword.table.map (·.tag)) :
    opensWord (signText tag none).toList = true := by
  have hwords : ∀ tag ∈ Keyword.table.map (·.tag), opensWord (signText tag none).toList = true := by
    decide
  exact hwords tag h

/-- A unary operator is written as its sign. -/
theorem IsUnary.sign {d : Dialect} {operator : Tag} (h : IsUnary d operator) :
    ∃ tag datum, IsSign d tag datum ∧ signText tag datum = operator.spelling
      ∧ Grammar.unaryOperator? (Sym.mk tag datum none).token = some operator := by
  have hspelled : ∀ s ∈ signs, ∀ op ∈ Grammar.unaryOperator? (Sym.mk s.1 s.2 none).token,
      signText s.1 s.2 = op.spelling := by
    decide
  obtain ⟨tag, datum, hsign, hop⟩ := h
  exact ⟨tag, datum, hsign, hspelled _ (isSign_listed hsign) _ hop, hop⟩

/-- A binary operator is written as its sign. -/
theorem IsBinary.sign {d : Dialect} {tag : Tag} {datum : Option Tag} (h : IsBinary d tag datum) :
    ∃ sign mark, IsSign d sign mark ∧ signText sign mark = (datum.getD tag).spelling
      ∧ Grammar.binaryOperator? false (Sym.mk sign mark none).token = some (tag, datum) := by
  have hspelled : ∀ s ∈ signs, ∀ op ∈ Grammar.binaryOperator? false (Sym.mk s.1 s.2 none).token,
      signText s.1 s.2 = (op.2.getD op.1).spelling := by
    decide
  obtain ⟨sign, mark, hsign, hop⟩ := h
  exact ⟨sign, mark, hsign, hspelled _ (isSign_listed hsign) _ hop, hop⟩

theorem IsBinary.level {d : Dialect} {tag : Tag} {datum : Option Tag} (h : IsBinary d tag datum) :
    ∃ level, tag.binaryPrecedence? = some level := by
  have hlevels : ∀ s ∈ signs, ∀ op ∈ Grammar.binaryOperator? false (Sym.mk s.1 s.2 none).token,
      op.1.binaryPrecedence?.isSome := by
    decide
  obtain ⟨sign, mark, hsign, hop⟩ := h
  exact Option.isSome_iff_exists.mp (hlevels _ (isSign_listed hsign) _ hop)

/-- The signs and keywords that operands begin with. -/
def operandSigns : List Tag :=
  [.leftParen, .leftBracket, .leftBrace, .kwFunction, .kwNew, .unary, .add, .sub, .increment,
   .decrement, .primary]

section
variable {d : Dialect} {tag : Tag} {datum : Option Tag} {compact : Bool} {lead : Lead}

theorem classify_sign (h : IsSign d tag datum) :
    classify d (signText tag datum).toList = ⟨tag, datum, none⟩ := classify_of h

/-- A sign in front of other words. -/
theorem words_sign (h : IsSign d tag datum) (more : List WriterStep) :
    words compact d lead false (.token (signText tag datum) :: more)
      = ⟨⟨tag, datum, none⟩, lead⟩ :: words compact d false false more := by
  rw [words_token, classify_sign h]

end

namespace Written
variable {d : Dialect} {tag : Tag} {datum : Option Tag} {s : String}

/-- A sign is a word of the language or stands in the table of signs. -/
theorem sign_cases (h : IsSign d tag datum) :
    (Lexer.opensNumber (signText tag datum).toList = false
        ∧ Lexer.opensWord (signText tag datum).toList = true)
      ∨ ∃ p ∈ Punctuator.table, (signText tag datum).toList = p.spelling ∧ tag = p.tag := by
  cases sort_of_lexeme h with
  | number ht => exact absurd (IsLexeme.tidy h) (by rw [show tag = .number from ht]; simp [isTidy])
  | word _ hn hw => exact .inl ⟨hn, hw⟩
  | string ht => exact absurd (IsLexeme.tidy h) (by rw [show tag = .string from ht]; simp [isTidy])
  | @sign p hp htext hs => exact .inr ⟨p, hp, htext, congrArg Sym.tag hs⟩

theorem genuine_sign (h : IsSign d tag datum) :
    (Written.mk .plain (signText tag datum).toList).Genuine d := genuine_plain h

theorem leads_of_sign (h : IsSign d tag datum) (hdot : tag ≠ .dot) :
    (Written.mk .plain (signText tag datum).toList).Leads := by
  rcases sign_cases h with ⟨hn, hw⟩ | ⟨p, hp, htext, rfl⟩
  · exact (free_word h hn hw).leads
  · rw [htext]
    refine leads_sign hp fun hs => hdot ?_
    have hdots : ∀ p ∈ Punctuator.table, p.spelling = ['.'] → p.tag = .dot := by decide
    exact hdots p hp hs

/-- No sign but the point begins with one. -/
theorem sign_head (h : IsSign d tag datum) (hdot : tag ≠ .dot) :
    (signText tag datum).toList.head? ≠ some '.' := by
  rcases sign_cases h with ⟨hn, hw⟩ | ⟨p, hp, htext, rfl⟩
  · intro hhead
    rw [Lexer.opensWord, hhead] at hw
    revert hw
    decide
  · rw [htext]
    intro hhead
    have hdots : ∀ p ∈ Punctuator.table, p.spelling.head? = some '.' → p.tag = .dot := by decide
    exact hdot (hdots p hp hhead)

/-- The signs beside which everything can stand. -/
theorem free_of_sign (h : IsSign d tag datum)
    (ht : tag ∈ [Tag.leftParen, .rightParen, .leftBracket, .rightBracket, .leftBrace, .rightBrace,
      .semicolon, .comma, .colon, .question, .increment, .decrement]
      ∨ Lexer.opensWord (signText tag datum).toList = true) :
    (Written.mk .plain (signText tag datum).toList).Free := by
  rcases sign_cases h with ⟨hn, hw⟩ | ⟨p, hp, htext, rfl⟩
  · exact free_word h hn hw
  · rw [htext]
    refine free_sign hp (ht.resolve_right fun hw => ?_)
    obtain ⟨-, -, hword, -⟩ := Lexer.sign_opens p hp
    rw [htext, hword] at hw
    cases hw

/-- The signs that operands begin with begin as operands do. -/
theorem headsOperand_sign (h : IsSign d tag datum) (ht : tag ∈ operandSigns) :
    ∀ c ∈ (signText tag datum).toList.head?, headsOperand c = true := by
  have hheads : ∀ s ∈ signs, s.1 ∈ operandSigns →
      ∀ c ∈ (signText s.1 s.2).toList.head?, headsOperand c = true := by
    have hall : ∀ s ∈ signs, s.1 ∈ operandSigns →
        (signText s.1 s.2).toList.head?.all headsOperand = true := by
      decide
    intro s hs ht c hc
    simpa [Option.mem_def.mp hc] using hall s hs ht
  exact hheads (tag, datum) (isSign_listed h) ht

theorem primary_word (h : IsSign d .primary datum) :
    opensWord (signText .primary datum).toList = true := by
  have hwords : ∀ s ∈ signs, s.1 = .primary → opensWord (signText s.1 s.2).toList = true := by
    decide
  exact hwords (.primary, datum) (isSign_listed h) rfl

/-! ## Names -/

/-- A name can stand behind a point. -/
theorem point_meets (h : IsName d s ∨ IsReserved d s) :
    (Written.mk .plain ['.']).Meets s.toList := by
  have hpoint : ∀ m ∈ marks, ['.'].isPrefixOf m = true → m = ['.'] := by decide
  intro c hc hglues
  have hgoes : Lexer.signGoesOn ['.'] c = true := hglues
  have hdigit : Text.isDigit c = true := by
    simp only [Lexer.signGoesOn, Bool.or_eq_true, List.any_eq_true, Bool.and_eq_true] at hgoes
    rcases hgoes with ⟨m, hm, hprefix⟩ | ⟨-, hdigit⟩
    · obtain ⟨rest, hrest⟩ := List.isPrefixOf_iff_prefix.mp hprefix
      have hshort := hpoint m hm (List.isPrefixOf_iff_prefix.mpr ⟨c :: rest, by simpa using hrest⟩)
      simp [hshort] at hrest
    · exact hdigit
  obtain ⟨tag, htag, hs⟩ : ∃ tag, (tag = .identifier ∨ tag = .reserved)
      ∧ IsLexeme d s.toList ⟨tag, none, some s⟩ := by
    rcases h with h | h
    · exact ⟨_, .inl rfl, h⟩
    · exact ⟨_, .inr rfl, h⟩
  cases sort_of_lexeme hs with
  | word _ hn hw =>
    rw [Lexer.opensNumber, Option.mem_def.mp hc] at hn
    simp [hdigit] at hn
  | number ht | string ht => rcases htag with rfl | rfl <;> cases ht
  | sign hp htext hs => cases congrArg Sym.text hs

theorem free_name (h : IsName d s ∨ IsReserved d s) :
    (Written.mk .plain s.toList).Genuine d ∧ (Written.mk .plain s.toList).Free
      ∧ ∀ c ∈ s.toList.head?, headsOperand c = true := by
  obtain ⟨tag, htag, h⟩ : ∃ tag, (tag = .identifier ∨ tag = .reserved)
      ∧ IsLexeme d s.toList ⟨tag, none, some s⟩ := by
    rcases h with h | h
    · exact ⟨_, .inl rfl, h⟩
    · exact ⟨_, .inr rfl, h⟩
  refine ⟨genuine_plain h, ?_⟩
  cases sort_of_lexeme h with
  | word _ hn hw => exact ⟨free_word h hn hw, headsOperand_word hw⟩
  | number ht | string ht =>
    rcases htag with rfl | rfl <;> cases ht
  | sign hp htext hs => cases congrArg Sym.text hs

theorem free_stringLit (h : IsLexeme d s.toList ⟨.string, none, some s⟩) :
    (Written.mk .plain s.toList).Genuine d ∧ (Written.mk .plain s.toList).Free
      ∧ ∀ c ∈ s.toList.head?, headsOperand c = true := by
  refine ⟨genuine_plain h, ?_⟩
  cases sort_of_lexeme h with
  | string _ hn hw hs => exact ⟨free_string hn hw hs, headsOperand_string hs⟩
  | number ht => cases ht
  | word ht => rcases ht (by simp) with ht | ht <;> cases ht
  | sign hp htext hs => cases congrArg Sym.text hs

theorem number_lexeme (h : IsLexeme d s.toList ⟨.number, none, some s⟩) :
    Literal.IsNumeral s.toList ∧ Lexer.opensNumber s.toList = true ∧ s.toList ≠ [] := by
  have hne : s.toList ≠ [] := by
    obtain ⟨c, hc, -⟩ := h
    rintro hnil
    rw [hnil] at hc
    cases hc
  cases sort_of_lexeme h with
  | number _ hnum hn => exact ⟨hnum, hn, hne⟩
  | string ht => cases ht
  | word ht => rcases ht (by simp) with ht | ht <;> cases ht
  | sign hp htext hs => cases congrArg Sym.text hs

end Written

/-- A name begins as a word. -/
theorem isName_opens {d : Dialect} {name : String} (h : IsName d name) :
    opensNumber name.toList = false ∧ opensWord name.toList = true := by
  cases Written.sort_of_lexeme h with
  | word _ hn hw => exact ⟨hn, hw⟩
  | number ht | string ht => cases ht
  | sign _ _ hs => cases congrArg Sym.text hs

end ScriptPress
