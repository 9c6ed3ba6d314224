import ScriptPress.Proofs.Lexical.Scan
import ScriptPress.Token.Lexer

/-! # Lexemes on their own

A symbol is what the grammar sees of a token: its tags and its text. A lexeme is a text that is
read as one symbol and leaves nothing over. It is read the same at the head of any longer text,
unless the character behind it glues to it. Whatever the lexer reads can be spelled as a lexeme.
-/
namespace ScriptPress

/-- What the grammar sees of a token. -/
structure Sym where
  tag : Tag
  datum : Option Tag := none
  text : Option String := none
  deriving Repr, DecidableEq, Inhabited

namespace Sym

/-- How a symbol is written. -/
def spelling (s : Sym) : String :=
  match s.text with
  | some text => text
  | none =>
    if s.tag == .assign then s.datum.elim "" Tag.spelling ++ "="
    else (s.datum.getD s.tag).spelling

end Sym

def Token.sym (t : Token) : Sym := ⟨t.tag, t.datum, t.text⟩

namespace Lexer

def Lexeme.sym (l : Lexeme) : Sym := ⟨l.tag, l.datum, l.text⟩

/-- A symbol together with the characters it takes and those left. -/
def Lexeme.of (s : Sym) (taken rest : List Char) : Lexeme := ⟨s.tag, s.datum, s.text, taken, rest⟩

/-- A text is read as one symbol. -/
def IsLexeme (d : Dialect) (text : List Char) (s : Sym) : Prop :=
  ∃ c, text.head? = some c ∧ lexeme d c text = .ok (.of s text [])

def opensNumber (text : List Char) : Bool :=
  text.head?.any Text.isDigit || (text.head? == some '.' && text.tail.head?.any Text.isDigit)

def opensWord (text : List Char) : Bool := text.head?.any fun c => Text.isIdentStart c || c == '\\'

def opensString (text : List Char) : Bool := text.head?.any fun c => c == '"' || c == '\''

/-- The beginnings of comments. -/
def commentMarks : List (List Char) := ["//".toList, "/*".toList, "<!--".toList, "-->".toList]

/-- A sign with a character behind it goes on to a longer sign, a comment or a number. -/
def signGoesOn (sign : List Char) (c : Char) : Bool :=
  (Punctuator.table.map Punctuator.spelling ++ commentMarks).any ((sign ++ [c]).isPrefixOf ·)
    || (sign == ['.'] && Text.isDigit c)

/-- Whether a character right behind a lexeme would change how the lexeme is read. -/
def glues (text : List Char) (c : Char) : Bool :=
  if opensNumber text then Literal.touchesNumber c || (text.all Text.isDigit && c == '.')
  else if opensWord text then Literal.wordGoesOn c
  else if opensString text then false
  else signGoesOn text c

theorem lexeme_eq {d : Dialect} {c : Char} {text : List Char} (h : text.head? = some c) :
    lexeme d c text =
      if opensNumber text then literal .number (Literal.number text)
      else if opensWord text then wordLexeme d text
      else if opensString text then literal .string (Literal.string text)
      else signLexeme d c text := by
  cases text with
  | nil => cases h
  | cons b text =>
    obtain rfl : b = c := by simpa using h
    rfl

theorem literal_ok {tag : Tag} {scan : Scan} {s : Sym} {taken rest : List Char}
    (h : literal tag scan = .ok (.of s taken rest)) :
    scan = .token taken rest ∧ s = ⟨tag, none, some (String.ofList taken)⟩ := by
  cases scan with
  | problem p taken => cases h
  | token t r =>
    simp only [literal, Lexeme.of, Except.ok.injEq, Lexeme.mk.injEq] at h
    obtain ⟨ht, hd, hx, rfl, rfl⟩ := h
    exact ⟨rfl, by rw [ht, hd, hx]⟩

/-! ## Signs -/

theorem signLexeme_ok {d : Dialect} {c : Char} {text : List Char} {s : Sym}
    {taken rest : List Char} (h : signLexeme d c text = .ok (.of s taken rest)) :
    ∃ p, Punctuator.longest? text = some p ∧ (isStrict p && !d.hasStrictEquality) = false
      ∧ s = ⟨p.tag, p.datum, none⟩ ∧ taken = p.spelling
      ∧ rest = text.drop p.spelling.length := by
  simp only [signLexeme] at h
  split at h
  · cases h
  · next p hp =>
    split at h
    · cases h
    · next hs =>
      simp only [Lexeme.of, Except.ok.injEq, Lexeme.mk.injEq] at h
      obtain ⟨ht, hd, hx, htaken, hrest⟩ := h
      exact ⟨p, hp, by simpa using hs, by rw [ht, hd, hx], htaken.symm, hrest.symm⟩

theorem longest_splits {text : List Char} {p : Punctuator}
    (h : Punctuator.longest? text = some p) :
    p ∈ Punctuator.table ∧ text = p.spelling ++ text.drop p.spelling.length := by
  have hp := List.find?_some h
  obtain ⟨rest, hrest⟩ := List.isPrefixOf_iff_prefix.mp hp
  refine ⟨List.mem_of_find?_eq_some h, ?_⟩
  rw [← hrest, List.drop_left]

theorem longest_spelling : ∀ p ∈ Punctuator.table, Punctuator.longest? p.spelling = some p := by
  decide

theorem find_congr {α : Type} {p q : α → Bool} {l : List α} (h : ∀ a ∈ l, p a = q a) :
    l.find? p = l.find? q := by
  induction l with
  | nil => rfl
  | cons a l ih =>
    rw [List.find?_cons, List.find?_cons, h a (by simp), ih fun b hb => h b (by simp [hb])]

theorem isPrefixOf_append {sign rest spelling : List Char}
    (h : ∀ c ∈ rest.head?, (sign ++ [c]).isPrefixOf spelling = false) :
    spelling.isPrefixOf (sign ++ rest) = spelling.isPrefixOf sign := by
  rw [Bool.eq_iff_iff, List.isPrefixOf_iff_prefix, List.isPrefixOf_iff_prefix]
  constructor
  · intro hp
    rcases List.prefix_or_prefix_of_prefix hp (List.prefix_append sign rest) with hle | hge
    · exact hle
    · obtain ⟨more, rfl⟩ := hge
      cases more with
      | nil => simp
      | cons c more =>
        obtain ⟨after, rfl⟩ := (List.prefix_append_right_inj sign).mp hp
        have hno := h c rfl
        have hyes : (sign ++ [c]).isPrefixOf (sign ++ c :: more) = true := by
          rw [List.isPrefixOf_iff_prefix, List.prefix_append_right_inj]
          exact ⟨more, rfl⟩
        simp [hyes] at hno
  · exact fun hp => hp.trans (List.prefix_append sign rest)

theorem longest_append {p : Punctuator} {rest : List Char} (hp : p ∈ Punctuator.table)
    (hr : ∀ c ∈ rest.head?, ∀ q ∈ Punctuator.table,
      (p.spelling ++ [c]).isPrefixOf q.spelling = false) :
    Punctuator.longest? (p.spelling ++ rest) = some p := by
  rw [← longest_spelling p hp, Punctuator.longest?, Punctuator.longest?]
  exact find_congr fun q hq => isPrefixOf_append fun c hc => hr c hc q hq

theorem sign_ends {sign : List Char} {c : Char} (h : signGoesOn sign c = false) :
    ∀ q ∈ Punctuator.table, (sign ++ [c]).isPrefixOf q.spelling = false := by
  intro q hq
  simp only [signGoesOn, Bool.or_eq_false_iff, List.any_eq_false, List.any_append,
    List.mem_map, forall_exists_index, and_imp] at h
  exact Bool.eq_false_iff.mpr (h.1.1 _ q hq rfl)

/-- No sign begins as a literal or a word. -/
theorem sign_opens : ∀ p ∈ Punctuator.table, p.spelling ≠ []
    ∧ opensNumber p.spelling = false ∧ opensWord p.spelling = false
    ∧ opensString p.spelling = false := by
  decide

theorem sign_spelling : ∀ p ∈ Punctuator.table,
    (Sym.spelling ⟨p.tag, p.datum, none⟩).toList = p.spelling := by
  decide

/-! ## Words -/

/-- What a word is to the grammar. -/
inductive WordSym (d : Dialect) (name : String) (escaped : Bool) : Sym → Prop
  | identifier : keyword? name d = none → WordSym d name escaped ⟨.identifier, none, some name⟩
  | keyword {tag datum} : keyword? name d = some (tag, datum) → escaped = false →
      WordSym d name escaped ⟨tag, datum, if tag == .reserved then some name else none⟩

theorem wordLexeme_ok {d : Dialect} {text : List Char} {s : Sym} {taken rest : List Char}
    (h : wordLexeme d text = .ok (.of s taken rest)) :
    ∃ w, Literal.word text = some w ∧ WordSym d (String.ofList w.name) w.escaped s
      ∧ w.taken = taken ∧ w.rest = rest := by
  simp only [wordLexeme] at h
  split at h
  · cases h
  · next w hw =>
    refine ⟨w, hw, ?_⟩
    split at h
    · next hk =>
      simp only [Lexeme.of, Except.ok.injEq, Lexeme.mk.injEq] at h
      obtain ⟨ht, hd, hx, htaken, hrest⟩ := h
      obtain rfl : s = ⟨.identifier, none, some (String.ofList w.name)⟩ := by rw [ht, hd, hx]
      exact ⟨.identifier hk, htaken, hrest⟩
    · next tag datum hk =>
      split at h
      · cases h
      · next he =>
        simp only [Lexeme.of, Except.ok.injEq, Lexeme.mk.injEq] at h
        obtain ⟨ht, hd, hx, htaken, hrest⟩ := h
        obtain rfl : s = ⟨tag, datum, if tag == .reserved then some (String.ofList w.name)
          else none⟩ := by rw [hx, ht, hd]
        exact ⟨.keyword hk (by simpa using he), htaken, hrest⟩

theorem wordLexeme_of {d : Dialect} {text : List Char} {w : Literal.Word} {s : Sym}
    (hw : Literal.word text = some w) (hs : WordSym d (String.ofList w.name) w.escaped s) :
    wordLexeme d text = .ok (.of s w.taken w.rest) := by
  simp only [wordLexeme, hw]
  cases hs with
  | identifier hk => simp only [hk, Lexeme.of]
  | keyword hk he => simp only [hk, he, Bool.false_eq_true, if_false, Lexeme.of]

theorem keyword_spelling : ∀ k ∈ Keyword.table,
    k.tag ≠ .reserved ∧ (Sym.mk k.tag k.datum none).spelling = k.word := by
  decide

/-- A word's symbol is spelled as the word's name. -/
theorem WordSym.spelling {d : Dialect} {name : String} {escaped : Bool} {s : Sym}
    (h : WordSym d name escaped s) : s.spelling = name := by
  cases h with
  | identifier hk => rfl
  | keyword hk he =>
    simp only [keyword?] at hk
    split at hk
    · next k hfind =>
      obtain ⟨rfl, rfl⟩ := Prod.mk.inj (Option.some.inj hk)
      obtain ⟨hr, hs⟩ := keyword_spelling k (List.mem_of_find?_eq_some hfind)
      have hword : k.word = name := by
        have := List.find?_some hfind
        simp only [Bool.and_eq_true, beq_iff_eq] at this
        exact this.1
      have hr' : (k.tag == Tag.reserved) = false := by simpa using hr
      simp only [hr', Bool.false_eq_true, if_false, hs, hword]
    · split at hk
      · obtain ⟨rfl, rfl⟩ := Prod.mk.inj (Option.some.inj hk)
        rfl
      · cases hk

/-- A word that comes with its text is a name or reserved. -/
theorem WordSym.worded {d : Dialect} {name : String} {escaped : Bool} {s : Sym}
    (h : WordSym d name escaped s) (ht : s.text ≠ none) : s.tag = .identifier ∨ s.tag = .reserved := by
  cases h with
  | identifier hk => exact .inl rfl
  | keyword hk he => exact .inr (by simpa using ht)

/-! ## Reading a lexeme in a longer text -/

theorem opensNumber_append {text rest : List Char} (hne : text ≠ [])
    (h : text = ['.'] → ∀ c ∈ rest.head?, Text.isDigit c = false) :
    opensNumber (text ++ rest) = opensNumber text := by
  match text with
  | [] => exact absurd rfl hne
  | [c] =>
    by_cases hc : c = '.'
    · subst hc
      cases rest with
      | nil => rfl
      | cons b rest => simp [opensNumber, h rfl b rfl]
    · simp [opensNumber, hc]
  | c :: b :: text => rfl

theorem opensWord_append {text rest : List Char} (hne : text ≠ []) :
    opensWord (text ++ rest) = opensWord text := by
  cases text with
  | nil => exact absurd rfl hne
  | cons c text => rfl

theorem opensString_append {text rest : List Char} (hne : text ≠ []) :
    opensString (text ++ rest) = opensString text := by
  cases text with
  | nil => exact absurd rfl hne
  | cons c text => rfl

theorem head_append {α : Type} {text rest : List α} {c : α} (h : text.head? = some c) :
    (text ++ rest).head? = some c := by
  rw [List.head?_append, h, Option.some_or]

theorem glues_sign {text : List Char} {c : Char} (hn : opensNumber text = false)
    (hw : opensWord text = false) (hs : opensString text = false) :
    glues text c = signGoesOn text c := by
  simp only [glues, hn, hw, hs, Bool.false_eq_true, if_false]

theorem isDigit_of_dot {c : Char} (h : glues ['.'] c = false) : Text.isDigit c = false := by
  rw [glues_sign rfl (by decide) rfl, signGoesOn, Bool.or_eq_false_iff] at h
  simpa using h.2

theorem endsNumber_of_glues {text rest : List Char} (hn : opensNumber text = true)
    (hr : ∀ c ∈ rest.head?, glues text c = false) : Literal.EndsNumber text rest := by
  simp only [glues, hn, if_true, Bool.or_eq_false_iff] at hr
  refine ⟨fun c hc => (hr c hc).1, fun hall c hc => ?_⟩
  simpa [hall] using (hr c hc).2

/-- A lexeme is read at the head of a text when nothing behind it glues to it. -/
theorem IsLexeme.append {d : Dialect} {text rest : List Char} {s : Sym} (h : IsLexeme d text s)
    (hr : ∀ c ∈ rest.head?, glues text c = false) :
    ∃ c, text.head? = some c ∧ lexeme d c (text ++ rest) = .ok (.of s text rest) := by
  obtain ⟨c, hc, hlex⟩ := h
  have hne : text ≠ [] := by
    rintro rfl
    cases hc
  have hdot : text = ['.'] → ∀ c ∈ rest.head?, Text.isDigit c = false := by
    rintro rfl b hb
    exact isDigit_of_dot (hr b hb)
  refine ⟨c, hc, ?_⟩
  rw [lexeme_eq hc] at hlex
  rw [lexeme_eq (head_append hc), opensNumber_append hne hdot, opensWord_append hne,
    opensString_append hne]
  by_cases hn : opensNumber text = true
  · simp only [hn, if_true] at hlex ⊢
    obtain ⟨hscan, rfl⟩ := literal_ok hlex
    obtain ⟨-, hshape, -⟩ := Literal.number_token hscan
    rw [Literal.number_append hshape (endsNumber_of_glues hn hr)]
    rfl
  simp only [Bool.not_eq_true] at hn
  by_cases hw : opensWord text = true
  · simp only [hn, hw, if_true, Bool.false_eq_true, if_false] at hlex ⊢
    obtain ⟨w, hword, hs, htaken, -⟩ := wordLexeme_ok hlex
    have hends : Literal.Ends Literal.wordGoesOn rest := by
      intro c hc
      simpa only [glues, hn, hw, if_true, Bool.false_eq_true, if_false] using hr c hc
    have hmoved := (Literal.wordFrom_isWord hword).moves rest hends
    rw [htaken] at hmoved
    exact wordLexeme_of hmoved hs
  simp only [Bool.not_eq_true] at hw
  by_cases hs : opensString text = true
  · simp only [hn, hw, hs, if_true, Bool.false_eq_true, if_false] at hlex ⊢
    obtain ⟨hscan, rfl⟩ := literal_ok hlex
    obtain ⟨-, -, -, hall⟩ := Literal.string_token hscan
    rw [hall rest]
    rfl
  simp only [Bool.not_eq_true] at hs
  simp only [hn, hw, hs, Bool.false_eq_true, if_false] at hlex ⊢
  obtain ⟨p, hp, hstrict, rfl, rfl, -⟩ := signLexeme_ok hlex
  have hmore : Punctuator.longest? (p.spelling ++ rest) = some p := by
    refine longest_append (longest_splits hp).1 fun c hc => sign_ends ?_
    rw [← glues_sign hn hw hs]
    exact hr c hc
  simp only [signLexeme, hmore, hstrict, Bool.false_eq_true, if_false, List.drop_left]
  rfl

/-! ## Spelling what was read -/

theorem not_digit_of_start {c : Char} (h : Text.isIdentStart c = true) :
    Text.isDigit c = false ∧ c ≠ '.' := by
  have hdot : Text.isIdentStart '.' = false := by decide
  refine ⟨?_, fun hc => by simp [hc, hdot] at h⟩
  by_contra hd
  have hcode : 48 ≤ c.toNat ∧ c.toNat ≤ 57 := by
    simpa [Text.isDigit, Char.le_def, UInt32.le_iff_toNat_le] using hd
  have hranges : Text.alphabetic = (65, 90) :: Text.alphabetic.drop 1 := rfl
  have halpha : Text.isAlphabetic c = false := by
    rw [Text.isAlphabetic, hranges, Text.inRanges, if_pos (by omega)]
  have hsign : c = '$' ∨ c = '_' := by simpa [Text.isIdentStart, halpha] using h
  rcases hsign with rfl | rfl <;> simp at hcode

/-- A name is a lexeme of its own. -/
theorem isLexeme_name {d : Dialect} {name : List Char} {escaped : Bool} {s : Sym}
    (hstart : ∃ c ∈ name.head?, Text.isIdentStart c = true)
    (hall : ∀ c ∈ name, Text.isIdentPart c = true)
    (hs : WordSym d (String.ofList name) escaped s) : IsLexeme d name s := by
  obtain ⟨c, hc, hstart⟩ := hstart
  obtain ⟨hdigit, hdot⟩ := not_digit_of_start hstart
  have hn : opensNumber name = false := by simp [opensNumber, Option.mem_def.mp hc, hdigit, hdot]
  have hw : opensWord name = true := by simp [opensWord, Option.mem_def.mp hc, hstart]
  have hword : Literal.word name = some ⟨name, false, name, []⟩ := by
    have hself := Literal.wordFrom_all true hall (Literal.ends_nil _)
    rwa [List.append_nil] at hself
  have hs' : WordSym d (String.ofList name) false s := by
    cases hs with
    | identifier hk => exact .identifier hk
    | keyword hk _ => exact .keyword hk rfl
  refine ⟨c, hc, ?_⟩
  rw [lexeme_eq hc]
  simp only [hn, hw, if_true, Bool.false_eq_true, if_false]
  exact wordLexeme_of hword hs'

/-- A sign of the dialect is a lexeme of its own. -/
theorem isLexeme_sign {d : Dialect} {p : Punctuator} (hp : p ∈ Punctuator.table)
    (hs : (isStrict p && !d.hasStrictEquality) = false) :
    IsLexeme d p.spelling ⟨p.tag, p.datum, none⟩ := by
  obtain ⟨hne, hn, hw, hstring⟩ := sign_opens p hp
  obtain ⟨c, hc⟩ : ∃ c, p.spelling.head? = some c := by
    cases hspell : p.spelling with
    | nil => exact absurd hspell hne
    | cons c more => exact ⟨c, rfl⟩
  refine ⟨c, hc, ?_⟩
  rw [lexeme_eq hc]
  simp only [hn, hw, hstring, Bool.false_eq_true, if_false, signLexeme, longest_spelling p hp, hs,
    List.drop_length]
  rfl

/-- A lexeme of a text: how it splits the text, and that its symbol is a lexeme as spelled. -/
theorem lexeme_ok {d : Dialect} {c : Char} {text taken rest : List Char} {s : Sym}
    (hc : text.head? = some c) (h : lexeme d c text = .ok (.of s taken rest)) :
    text = taken ++ rest ∧ taken ≠ [] ∧ IsLexeme d s.spelling.toList s := by
  rw [lexeme_eq hc] at h
  by_cases hn : opensNumber text = true
  · simp only [hn, if_true] at h
    obtain ⟨hscan, rfl⟩ := literal_ok h
    obtain ⟨rfl, hshape, hends, hdot⟩ := Literal.number_token hscan
    have hne : taken ≠ [] := by
      rintro rfl
      have hdigit : Literal.Ends Text.isDigit rest := hends.mono fun c => Literal.touches_digit
      rw [List.nil_append] at hc hn
      have h1 := hdigit c hc
      have h2 := hdot rfl c hc
      simp only [beq_eq_false_iff_ne, ne_eq] at h2
      simp [opensNumber, hc, h1, h2] at hn
    have hopens : opensNumber taken = true := by
      rw [← opensNumber_append hne (fun _ => hends.mono fun c => Literal.touches_digit), hn]
    have hself : Literal.number (taken ++ []) = .token taken [] :=
      Literal.number_append hshape ⟨Literal.ends_nil _, fun _ => Literal.ends_nil _⟩
    obtain ⟨b, hb⟩ : ∃ b, taken.head? = some b := by
      cases taken with
      | nil => exact absurd rfl hne
      | cons b taken => exact ⟨b, rfl⟩
    rw [List.append_nil] at hself
    refine ⟨rfl, hne, ?_⟩
    simp only [Sym.spelling, String.toList_ofList]
    exact ⟨b, hb, by rw [lexeme_eq hb, hopens, if_pos rfl, hself]; rfl⟩
  simp only [Bool.not_eq_true] at hn
  by_cases hw : opensWord text = true
  · simp only [hn, hw, if_true, Bool.false_eq_true, if_false] at h
    obtain ⟨w, hword, hs, rfl, rfl⟩ := wordLexeme_ok h
    have hw' := Literal.wordFrom_isWord hword
    have hstart := hw'.start rfl ⟨c, hc, by simpa [opensWord, hc, or_comm] using hw⟩
    refine ⟨hw'.splits, fun hnil => ?_, ?_⟩
    · obtain ⟨b, hb, -⟩ := hstart
      simp [hw'.short hnil] at hb
    · rw [hs.spelling, String.toList_ofList]
      exact isLexeme_name hstart hw'.name hs
  simp only [Bool.not_eq_true] at hw
  by_cases hs : opensString text = true
  · simp only [hn, hw, hs, if_true, Bool.false_eq_true, if_false] at h
    obtain ⟨hscan, rfl⟩ := literal_ok h
    obtain ⟨rfl, hne, -, hall⟩ := Literal.string_token hscan
    have hself := hall []
    rw [List.append_nil] at hself
    obtain ⟨b, hb⟩ : ∃ b, taken.head? = some b := by
      cases taken with
      | nil => exact absurd rfl hne
      | cons b taken => exact ⟨b, rfl⟩
    have hdot : taken = ['.'] → ∀ c ∈ rest.head?, Text.isDigit c = false := by
      rintro rfl
      cases hs
    rw [opensNumber_append hne hdot] at hn
    rw [opensWord_append hne] at hw
    rw [opensString_append hne] at hs
    refine ⟨rfl, hne, ?_⟩
    simp only [Sym.spelling, String.toList_ofList]
    refine ⟨b, hb, ?_⟩
    rw [lexeme_eq hb]
    simp only [hn, hw, hs, if_true, Bool.false_eq_true, if_false, hself]
    rfl
  simp only [Bool.not_eq_true] at hs
  simp only [hn, hw, hs, Bool.false_eq_true, if_false] at h
  obtain ⟨p, hp, hstrict, rfl, rfl, rfl⟩ := signLexeme_ok h
  obtain ⟨htable, hsplit⟩ := longest_splits hp
  refine ⟨hsplit, (sign_opens p htable).1, ?_⟩
  rw [sign_spelling p htable]
  exact isLexeme_sign htable hstrict

/-- The kinds of lexemes. -/
inductive Kind (d : Dialect) (taken : List Char) : Sym → Prop
  | number : Kind d taken ⟨.number, none, some (String.ofList taken)⟩
  | string : Kind d taken ⟨.string, none, some (String.ofList taken)⟩
  | word {name escaped s} : WordSym d name escaped s → Kind d taken s
  | sign {p} : p ∈ Punctuator.table → taken = p.spelling → Kind d taken ⟨p.tag, p.datum, none⟩

theorem lexeme_kind {d : Dialect} {c : Char} {text taken rest : List Char} {s : Sym}
    (hc : text.head? = some c) (h : lexeme d c text = .ok (.of s taken rest)) :
    Kind d taken s := by
  rw [lexeme_eq hc] at h
  split at h
  · obtain ⟨-, rfl⟩ := literal_ok h
    exact .number
  · split at h
    · obtain ⟨w, -, hs, -, -⟩ := wordLexeme_ok h
      exact .word hs
    · split at h
      · obtain ⟨-, rfl⟩ := literal_ok h
        exact .string
      · obtain ⟨p, hp, -, rfl, rfl, -⟩ := signLexeme_ok h
        exact .sign (longest_splits hp).1 rfl

/-- The tags that no lexeme has, and the slashes, which are signs. -/
def isSlashTags (tag : Tag) (datum : Option Tag) : Bool :=
  tag == .div || (tag == .assign && datum == some .div)

theorem keyword_tags : ∀ k ∈ Keyword.table, k.tag ≠ .regExp ∧ k.tag ≠ .endOfInput
    ∧ isSlashTags k.tag k.datum = false := by
  decide

theorem sign_tags : ∀ p ∈ Punctuator.table, p.tag ≠ .regExp ∧ p.tag ≠ .endOfInput
    ∧ (isSlashTags p.tag p.datum = true →
      p.tag = .div ∧ p.spelling = ['/'] ∨ p.tag = .assign ∧ p.spelling = ['/', '=']) := by
  decide

theorem WordSym.tags {d : Dialect} {name : String} {escaped : Bool} {s : Sym}
    (h : WordSym d name escaped s) :
    s.tag ≠ .regExp ∧ s.tag ≠ .endOfInput ∧ isSlashTags s.tag s.datum = false := by
  cases h with
  | identifier hk => exact ⟨by simp, by simp, rfl⟩
  | keyword hk he =>
    simp only [keyword?] at hk
    split at hk
    · next k hfind =>
      obtain ⟨rfl, rfl⟩ := Prod.mk.inj (Option.some.inj hk)
      exact keyword_tags k (List.mem_of_find?_eq_some hfind)
    · split at hk
      · obtain ⟨rfl, rfl⟩ := Prod.mk.inj (Option.some.inj hk)
        exact ⟨by simp, by simp, rfl⟩
      · cases hk

theorem Kind.tags {d : Dialect} {taken : List Char} {s : Sym} (h : Kind d taken s) :
    s.tag ≠ .regExp ∧ s.tag ≠ .endOfInput ∧ (isSlashTags s.tag s.datum = true →
      s.tag = .div ∧ taken = ['/'] ∨ s.tag = .assign ∧ taken = ['/', '=']) := by
  cases h with
  | number => exact ⟨by simp, by simp, by simp [isSlashTags]⟩
  | string => exact ⟨by simp, by simp, by simp [isSlashTags]⟩
  | word hs =>
    obtain ⟨h1, h2, h3⟩ := hs.tags
    exact ⟨h1, h2, by simp [h3]⟩
  | sign hp ht =>
    rw [ht]
    exact sign_tags _ hp

/-- The tags that come with a text of their own, and those that come with a datum. -/
def isTidy (s : Sym) : Bool :=
  match s.tag with
  | .identifier | .number | .string | .reserved => s.datum.isNone && s.text.isSome
  | .assign => s.text.isNone
  | .equality | .relation | .shift | .unary | .primary => s.datum.isSome && s.text.isNone
  | _ => s.datum.isNone && s.text.isNone

theorem keyword_tidy : ∀ k ∈ Keyword.table, isTidy ⟨k.tag, k.datum, none⟩ = true := by decide

theorem sign_tidy : ∀ p ∈ Punctuator.table, isTidy ⟨p.tag, p.datum, none⟩ = true := by decide

theorem Kind.tidy {d : Dialect} {taken : List Char} {s : Sym} (h : Kind d taken s) :
    isTidy s = true := by
  cases h with
  | number => rfl
  | string => rfl
  | sign hp _ => exact sign_tidy _ hp
  | word hs =>
    cases hs with
    | identifier hk => rfl
    | keyword hk he =>
      simp only [keyword?] at hk
      split at hk
      · next k hfind =>
        obtain ⟨rfl, rfl⟩ := Prod.mk.inj (Option.some.inj hk)
        have hmem := List.mem_of_find?_eq_some hfind
        rw [if_neg (by simpa using (keyword_spelling k hmem).1)]
        exact keyword_tidy k hmem
      · split at hk
        · obtain ⟨rfl, rfl⟩ := Prod.mk.inj (Option.some.inj hk)
          rfl
        · cases hk

theorem IsLexeme.tidy {d : Dialect} {text : List Char} {s : Sym} (h : IsLexeme d text s) :
    isTidy s = true := by
  obtain ⟨c, hc, hl⟩ := h
  exact (lexeme_kind hc hl).tidy

/-! ## Where gaps end -/

/-- The blanks and line breaks. -/
def spaceCodes : List Nat :=
  [0x9, 0xa, 0xb, 0xc, 0xd, 0x20, 0x85, 0xa0, 0x1680, 0x2000, 0x2001, 0x2002, 0x2003, 0x2004,
   0x2005, 0x2006, 0x2007, 0x2008, 0x2009, 0x200a, 0x2028, 0x2029, 0x202f, 0x205f, 0x3000, 0xfeff]

def isSpace (c : Char) : Bool := Text.isBlank c || Text.isLineBreak c

theorem inRanges_mem {n : Nat} {ranges : List Text.CharRange}
    (h : Text.inRanges n ranges = true) : ∃ r ∈ ranges, r.1 ≤ n ∧ n ≤ r.2 := by
  induction ranges with
  | nil => cases h
  | cons r ranges ih =>
    rw [Text.inRanges] at h
    split at h
    · cases h
    · next hfirst =>
      split at h
      · next hlast => exact ⟨r, by simp, by omega, hlast⟩
      · obtain ⟨r', hmem, hr'⟩ := ih h
        exact ⟨r', by simp [hmem], hr'⟩

theorem isSpace_code {c : Char} (h : isSpace c = true) : c.toNat ∈ spaceCodes := by
  have hcases : Text.isWhiteSpace c = true ∨ Text.isLineBreak c = true ∨ c = '\uFEFF' := by
    by_cases hb : Text.isLineBreak c = true
    · exact Or.inr (Or.inl hb)
    · have h' : c = '\uFEFF' ∨ Text.isWhiteSpace c = true := by
        simpa [isSpace, Text.isBlank, hb] using h
      exact h'.elim (fun h => Or.inr (Or.inr h)) Or.inl
  rcases hcases with hw | hb | rfl
  · obtain ⟨r, hmem, hlow, hhigh⟩ := inRanges_mem hw
    simp only [Text.whiteSpace, List.mem_cons, List.not_mem_nil, or_false] at hmem
    simp only [spaceCodes, List.mem_cons, List.not_mem_nil, or_false]
    rcases hmem with rfl | rfl | rfl | rfl | rfl | rfl | rfl | rfl | rfl | rfl <;>
      simp only at hlow hhigh <;> omega
  · have hb' : ((c = '\n' ∨ c = '\r') ∨ c = '\u2028') ∨ c = '\u2029' := by
      simpa [Text.isLineBreak] using hb
    rcases hb' with ((rfl | rfl) | rfl) | rfl <;> decide
  · decide

theorem not_alphabetic_space : ∀ n ∈ spaceCodes, Text.inRanges n Text.alphabetic = false := by
  decide +kernel

theorem sign_head : ∀ p ∈ Punctuator.table, ∀ c ∈ p.spelling.head?, c.toNat ∉ spaceCodes := by
  have hall : ∀ p ∈ Punctuator.table,
      p.spelling.head?.all (fun c => decide (c.toNat ∉ spaceCodes)) = true := by
    decide
  intro p hp c hc
  simpa [Option.mem_def.mp hc] using hall p hp

/-- No lexeme begins with a blank or a line break. -/
theorem IsLexeme.head_not_space {d : Dialect} {text : List Char} {s : Sym}
    (h : IsLexeme d text s) : ∀ c ∈ text.head?, isSpace c = false := by
  intro c hc
  obtain ⟨b, hb, hlex⟩ := h
  obtain rfl : b = c := by simpa [hb] using hc
  by_contra hspace
  have hcode := isSpace_code (by simpa using hspace)
  rw [lexeme_eq hb] at hlex
  have hn : opensNumber text = false := by
    by_contra hn
    have hd : Text.isDigit b = true ∨ b = '.' := by
      by_cases hd : Text.isDigit b = true
      · exact Or.inl hd
      · simp only [opensNumber, hb, Option.any_some, hd, Bool.false_or, Bool.not_eq_false,
          Bool.and_eq_true, beq_iff_eq, Option.some.injEq] at hn
        exact Or.inr hn.1
    rcases hd with hd | rfl
    · have : 48 ≤ b.toNat ∧ b.toNat ≤ 57 := by
        simpa [Text.isDigit, Char.le_def, UInt32.le_iff_toNat_le] using hd
      simp only [spaceCodes, List.mem_cons, List.not_mem_nil, or_false] at hcode
      omega
    · exact absurd hcode (by decide)
  have hw : opensWord text = false := by
    have halpha : Text.isAlphabetic b = false := not_alphabetic_space _ hcode
    by_contra hw
    simp only [opensWord, hb, Option.any_some, Text.isIdentStart, halpha, Bool.or_false,
      Bool.not_eq_false, Bool.or_eq_true, beq_iff_eq] at hw
    rcases hw with (rfl | rfl) | rfl <;> exact absurd hcode (by decide)
  have hs : opensString text = false := by
    by_contra hs
    simp only [opensString, hb, Option.any_some, Bool.not_eq_false, Bool.or_eq_true,
      beq_iff_eq] at hs
    rcases hs with rfl | rfl <;> exact absurd hcode (by decide)
  simp only [hn, hw, hs, Bool.false_eq_true, if_false] at hlex
  obtain ⟨p, hp, -, -, rfl, -⟩ := signLexeme_ok hlex
  exact sign_head p (longest_splits hp).1 b hc hcode

theorem not_numeric_space : ∀ n ∈ spaceCodes, Text.inRanges n Text.numeric = false := by
  decide

theorem identPart_not_space {c : Char} (h : Text.isIdentPart c = true) : isSpace c = false := by
  by_contra hspace
  have hcode := isSpace_code (by simpa using hspace)
  have halpha : Text.isAlphabetic c = false := not_alphabetic_space _ hcode
  have hnum : Text.isNumeric c = false := not_numeric_space _ hcode
  have hc : c = '$' ∨ c = '_' := by simpa [Text.isIdentPart, Text.isIdentStart, halpha, hnum] using h
  rcases hc with rfl | rfl <;> exact absurd hcode (by decide)

theorem digit_not_space {c : Char} (h : Text.isDigit c = true) : isSpace c = false := by
  by_contra hspace
  have hcode := isSpace_code (by simpa using hspace)
  have hrange : 48 ≤ c.toNat ∧ c.toNat ≤ 57 := by
    simpa [Text.isDigit, Char.le_def, UInt32.le_iff_toNat_le] using h
  simp only [spaceCodes, List.mem_cons, List.not_mem_nil, or_false] at hcode
  omega

theorem touching_not_space {c : Char} (h : Literal.touchesNumber c = true) :
    isSpace c = false := by
  simp only [Literal.touchesNumber, Bool.or_eq_true, beq_iff_eq] at h
  rcases h with (h | h) | rfl
  · exact identPart_not_space (Literal.identPart_of_start h)
  · exact digit_not_space h
  · decide

theorem sign_last : ∀ p ∈ Punctuator.table, ∀ c ∈ p.spelling.getLast?, isSpace c = false := by
  have hall : ∀ p ∈ Punctuator.table, p.spelling.getLast?.all (!isSpace ·) = true := by
    decide
  intro p hp c hc
  simpa [Option.mem_def.mp hc] using hall p hp

/-- No lexeme ends with a blank or a line break. -/
theorem IsLexeme.last_not_space {d : Dialect} {text : List Char} {s : Sym}
    (h : IsLexeme d text s) : ∀ c ∈ text.getLast?, isSpace c = false := by
  intro c hc
  obtain ⟨b, hb, hlex⟩ := h
  rw [lexeme_eq hb] at hlex
  split at hlex
  · obtain ⟨hscan, -⟩ := literal_ok hlex
    obtain ⟨-, hshape, -⟩ := Literal.number_token hscan
    rcases hshape.chars c (List.mem_of_getLast? hc) with h | rfl | rfl | rfl
    · exact touching_not_space h
    all_goals decide
  · split at hlex
    · obtain ⟨w, hword, -, htaken, -⟩ := wordLexeme_ok hlex
      have hchars := (Literal.wordFrom_isWord hword).chars
      rw [htaken] at hchars
      exact (hchars c (List.mem_of_getLast? hc)).elim identPart_not_space touching_not_space
    · split at hlex
      · next hs =>
        obtain ⟨hscan, -⟩ := literal_ok hlex
        obtain ⟨-, -, hlast, -⟩ := Literal.string_token hscan
        rw [hlast, hb, Option.mem_def, Option.some.injEq] at hc
        subst hc
        have hquote : b = '"' ∨ b = '\'' := by simpa [opensString, hb] using hs
        rcases hquote with rfl | rfl <;> decide
      · obtain ⟨p, hp, -, -, rfl, -⟩ := signLexeme_ok hlex
        exact sign_last p (longest_splits hp).1 c hc

theorem mark_sign : ∀ m ∈ commentMarks, ∀ p ∈ Punctuator.table,
    m.isPrefixOf p.spelling = false := by
  decide

theorem mark_head : ∀ m ∈ commentMarks, ∃ c, m.head? = some c
    ∧ Text.isIdentStart c = false ∧ Text.isDigit c = false ∧ c ≠ '.' ∧ c ≠ '\\' ∧ c ≠ '"'
    ∧ c ≠ '\'' := by
  have hmark : ∀ m ∈ commentMarks, m.head? = some '/' ∨ m.head? = some '<' ∨ m.head? = some '-' := by
    decide
  have hother : ∀ c ∈ ['/', '<', '-'], Text.isIdentStart c = false ∧ Text.isDigit c = false
      ∧ c ≠ '.' ∧ c ≠ '\\' ∧ c ≠ '"' ∧ c ≠ '\'' := Literal.forall_chars (by decide)
  intro m hm
  rcases hmark m hm with h | h | h
  · exact ⟨_, h, hother _ (by simp)⟩
  · exact ⟨_, h, hother _ (by simp)⟩
  · exact ⟨_, h, hother _ (by simp)⟩

/-- A text with a lexeme at its head does not begin with the mark of a comment. -/
theorem IsLexeme.no_mark {d : Dialect} {text rest : List Char} {s : Sym} (h : IsLexeme d text s)
    (hr : ∀ c ∈ rest.head?, glues text c = false) {m : List Char} (hm : m ∈ commentMarks) :
    m.isPrefixOf (text ++ rest) = false := by
  obtain ⟨b, hb, hlex⟩ := h
  rw [lexeme_eq hb] at hlex
  by_contra hprefix
  simp only [Bool.not_eq_false] at hprefix
  obtain ⟨c, hc, hstart, hdigit, hdot, hescape, hdouble, hsingle⟩ := mark_head m hm
  obtain ⟨more, hmore⟩ := List.isPrefixOf_iff_prefix.mp hprefix
  obtain rfl : c = b := by
    have h1 : (m ++ more).head? = some c := head_append hc
    rw [hmore, head_append hb] at h1
    simpa using h1.symm
  have hn : opensNumber text = false := by simp [opensNumber, hb, hdigit, hdot]
  have hw : opensWord text = false := by simp [opensWord, hb, hstart, hescape]
  have hs : opensString text = false := by simp [opensString, hb, hdouble, hsingle]
  simp only [hn, hw, hs, Bool.false_eq_true, if_false] at hlex
  obtain ⟨p, hp, -, -, rfl, -⟩ := signLexeme_ok hlex
  have hgo : m.isPrefixOf (p.spelling ++ rest) = m.isPrefixOf p.spelling := by
    refine isPrefixOf_append fun c hc => ?_
    have hno := hr c hc
    rw [glues_sign hn hw hs, signGoesOn, Bool.or_eq_false_iff, List.any_append,
      Bool.or_eq_false_iff, List.any_eq_false, List.any_eq_false] at hno
    exact Bool.eq_false_iff.mpr (hno.1.2 m hm)
  rw [hgo, mark_sign m hm p (longest_splits hp).1] at hprefix
  cases hprefix

/-- A lexeme at the head of a text ends the gap before it. -/
theorem IsLexeme.scanFrom {d : Dialect} {text rest : List Char} {s : Sym} (h : IsLexeme d text s)
    (hr : ∀ c ∈ rest.head?, glues text c = false) (fresh : Bool) :
    Gap.scanFrom (.between fresh) (text ++ rest) = ⟨[], none, text ++ rest⟩ := by
  have hspace := h.head_not_space
  have hmark := fun m hm => h.no_mark hr (m := m) hm
  obtain ⟨b, hb, -⟩ := h
  cases text with
  | nil => cases hb
  | cons c text =>
    have hc : (Text.isBlank c || Text.isLineBreak c) = false := hspace c rfl
    have h1 := hmark _ (by decide : "//".toList ∈ commentMarks)
    have h2 := hmark _ (by decide : "/*".toList ∈ commentMarks)
    have h3 := hmark _ (by decide : "<!--".toList ∈ commentMarks)
    have h4 := hmark _ (by decide : "-->".toList ∈ commentMarks)
    have hline : Gap.opensLineComment fresh (c :: (text ++ rest)) = false := by
      simp only [Gap.opensLineComment]
      rw [Bool.or_eq_false_iff, Bool.or_eq_false_iff, Bool.and_eq_false_iff]
      exact ⟨⟨h1, h3⟩, Or.inr h4⟩
    have hblock : Gap.opensBlockComment (c :: (text ++ rest)) = false := h2
    rw [List.cons_append, Gap.scanFrom, if_neg (by simp [hc]), if_neg (by simp [hline]),
      if_neg (by simp [hblock])]

end Lexer
end ScriptPress
