import ScriptPress.Proofs.Lexical.Feed
import ScriptPress.Render.Writer

/-! # The words of instructions

What the lexer will read from the text that instructions make. The writer puts a space between two
tokens that would read back as others, and leaves out semicolons that nothing needs; the grammar
gets the words that were meant, and the comments in their order.
-/
namespace ScriptPress

/-- How a token was given to the writer. -/
inductive TokenKind where
  | plain | number | regExp
  deriving Repr, DecidableEq

structure Written where
  kind : TokenKind
  text : List Char
  deriving Repr, DecidableEq

/-- The token an instruction writes at once. -/
def WriterStep.written? : WriterStep → Option Written
  | .token text => some ⟨.plain, text.toList⟩
  | .number text => some ⟨.number, text.toList⟩
  | .regExp text => some ⟨.regExp, text.toList⟩
  | .hardSemicolon => some ⟨.plain, [';']⟩
  | _ => none

/-- The symbol of a text that is a lexeme. -/
def classify (d : Dialect) (text : List Char) : Sym :=
  match text with
  | [] => default
  | c :: rest =>
    match Lexer.lexeme d c (c :: rest) with
    | .ok l => l.sym
    | .error _ => default

theorem classify_of {d : Dialect} {text : List Char} {s : Sym} (h : Lexer.IsLexeme d text s) :
    classify d text = s := by
  obtain ⟨c, hc, hl⟩ := h
  cases text with
  | nil => cases hc
  | cons b rest =>
    obtain rfl : b = c := by simpa using hc
    simp only [classify, hl]
    rfl

namespace Written

def semicolon : Written := ⟨.plain, [';']⟩

/-- What the grammar gets of a token. -/
def sym (d : Dialect) (t : Written) : Sym :=
  match t.kind with
  | .regExp => .pattern t.text
  | _ => classify d t.text

/-- A token that reads back as one symbol. -/
def Genuine (d : Dialect) (t : Written) : Prop :=
  match t.kind with
  | .regExp => Lexer.IsPattern d t.text
  | _ => Lexer.IsLexeme d t.text (t.sym d)

/-- Whether a character right behind the token would change how it is read. -/
def glues (t : Written) (c : Char) : Bool :=
  match t.kind with
  | .regExp => Text.isIdentPart c
  | _ => Lexer.glues t.text c

/-- Whether the writer keeps the token apart from a character behind it. -/
def parts (t : Written) (c : Char) : Bool :=
  t.text.getLast?.any fun last =>
    (Writer.isWordChar c && (Writer.isWordChar last || t.kind == .regExp
        || (t.kind == .number && last == '.')))
      || Writer.fuses (if t.text == ['-', '-'] then some '-' else none) last c

/-- Two tokens that the writer keeps apart if they need it. -/
def Meets (t : Written) (next : List Char) : Prop :=
  ∀ c ∈ next.head?, t.glues c = true → t.parts c = true

end Written

/-! ## Words and comments -/

/-- The semicolon owed before a token. -/
def owed (owes : Bool) (t : Written) (lead : Lead) : List Word :=
  if owes && t.text != ['\x7d'] then [⟨⟨.semicolon, none, none⟩, lead⟩] else []

/-- A lead with a line that ends in it. -/
def Lead.broken (lead : Lead) : Lead := ⟨true, lead.remarks⟩

/-- A lead with a comment at its end. Compact output has none. -/
def Lead.noted (compact : Bool) (lead : Lead) (text : String) : Lead :=
  ⟨true, if compact then lead.remarks else lead.remarks ++ [text]⟩

/-- The words of instructions, when there is a lead before them or a semicolon is owed. -/
def words (compact : Bool) (d : Dialect) :
    (lead : Lead) → (owes : Bool) → List WriterStep → List Word
  | _, _, [] => []
  | lead, owes, step :: more =>
    match step.written? with
    | some t => owed owes t lead ++ ⟨t.sym d, lead⟩ :: words compact d false false more
    | none =>
      match step with
      | .semicolon =>
        if compact then words compact d lead true more
        else ⟨⟨.semicolon, none, none⟩, lead⟩ :: words compact d false false more
      | .newline | .blankLine => words compact d lead.broken owes more
      | .comment text => words compact d (lead.noted compact text) owes more
      | _ => words compact d lead owes more

/-- The comments behind the words of instructions, when there is a lead before them. -/
def behind (compact : Bool) : (lead : Lead) → List WriterStep → List String
  | lead, [] => lead.remarks
  | lead, step :: more =>
    match step.written? with
    | some _ => behind compact false more
    | none =>
      match step with
      | .semicolon => behind compact (if compact then lead else false) more
      | .newline | .blankLine => behind compact lead.broken more
      | .comment text => behind compact (lead.noted compact text) more
      | _ => behind compact lead more

section
variable {compact : Bool} {d : Dialect} {lead : Lead} {owes : Bool} (text : String)
  (more : List WriterStep)

theorem words_token : words compact d lead false (.token text :: more)
    = ⟨classify d text.toList, lead⟩ :: words compact d false false more := rfl

theorem words_number : words compact d lead false (.number text :: more)
    = ⟨classify d text.toList, lead⟩ :: words compact d false false more := rfl

@[simp] theorem words_space :
    words compact d lead owes (.space :: more) = words compact d lead owes more := rfl

@[simp] theorem words_indent :
    words compact d lead owes (.indent :: more) = words compact d lead owes more := rfl

@[simp] theorem words_outdent :
    words compact d lead owes (.outdent :: more) = words compact d lead owes more := rfl

@[simp] theorem words_setBackLine :
    words compact d lead owes (.setBackLine :: more) = words compact d lead owes more := rfl

@[simp] theorem words_newline :
    words compact d lead owes (.newline :: more) = words compact d lead.broken owes more := rfl

@[simp] theorem words_blankLine :
    words compact d lead owes (.blankLine :: more) = words compact d lead.broken owes more := rfl

@[simp] theorem words_comment : words compact d lead owes (.comment text :: more)
    = words compact d (lead.noted compact text) owes more := rfl

theorem words_semicolon : words compact d lead owes (.semicolon :: more)
    = if compact then words compact d lead true more
      else ⟨⟨.semicolon, none, none⟩, lead⟩ :: words compact d false false more := rfl

theorem behind_semicolon : behind compact lead (.semicolon :: more)
    = behind compact (if compact then lead else false) more := rfl

@[simp] theorem behind_comment : behind compact lead (.comment text :: more)
    = behind compact (lead.noted compact text) more := rfl

end

section
variable {d : Dialect} (cs : List String) (lead : Lead) (steps : List WriterStep)

/-- More comments in front of instructions come in front of their words. -/
theorem words_remarked : words false d (lead.remarked cs) false steps
    = remarked cs (words false d lead false steps) := by
  induction steps generalizing lead with
  | nil => rfl
  | cons step more ih =>
    cases step with
    | token _ | number _ | regExp _ | hardSemicolon | semicolon => rfl
    | comment text =>
      have hnoted : (lead.remarked cs).noted false text = (lead.noted false text).remarked cs := by
        simp [Lead.noted, Lead.remarked]
      rw [words_comment, words_comment, hnoted, ih]
    | newline | blankLine => exact ih lead.broken
    | space | indent | outdent | setBackLine | missing => exact ih lead

theorem behind_remarked : behind false (lead.remarked cs) steps
    = remarkedTail cs (words false d lead false steps) (behind false lead steps) := by
  induction steps generalizing lead with
  | nil => rfl
  | cons step more ih =>
    cases step with
    | token _ | number _ | regExp _ | hardSemicolon | semicolon => rfl
    | comment text =>
      have hnoted : (lead.remarked cs).noted false text = (lead.noted false text).remarked cs := by
        simp [Lead.noted, Lead.remarked]
      have hsteps := ih (lead.noted false text)
      rwa [← hnoted] at hsteps
    | newline | blankLine => exact ih lead.broken
    | space | indent | outdent | setBackLine | missing => exact ih lead

end

/-- Instructions whose tokens read back as they are: each is genuine, and each meets the next
one. A statement's end does not follow another one directly, and no part is missing. -/
def Flows (d : Dialect) : (last : Option Written) → (ended : Bool) → List WriterStep → Prop
  | _, _, [] => True
  | last, ended, step :: more =>
    match step.written? with
    | some t => t.Genuine d ∧ (∀ k ∈ last, k.Meets t.text) ∧ Flows d (some t) false more
    | none =>
      match step with
      | .semicolon => ended = false ∧ Flows d none true more
      | .comment text => Gap.IsComment text.toList ∧ Flows d last ended more
      | .missing => False
      | _ => Flows d last ended more

/-- Instructions that flow have every part. -/
theorem Flows.complete {d : Dialect} {last : Option Written} {ended : Bool}
    {steps : List WriterStep} (h : Flows d last ended steps) : .missing ∉ steps := by
  induction steps generalizing last ended with
  | nil => simp
  | cons step more ih =>
    rw [List.mem_cons, not_or]
    cases step with
    | missing => exact False.elim h
    | token _ | number _ | regExp _ | hardSemicolon => exact ⟨nofun, ih h.2.2⟩
    | semicolon | comment _ => exact ⟨nofun, ih h.2⟩
    | _ => exact ⟨nofun, ih h⟩

namespace Written
variable {d : Dialect} {t : Written}

theorem Genuine.last_not_space (h : t.Genuine d) :
    ∀ c ∈ t.text.getLast?, Lexer.isSpace c = false := by
  obtain ⟨kind, text⟩ := t
  cases kind with
  | regExp => exact Lexer.IsPattern.last_not_space h
  | plain => exact Lexer.IsLexeme.last_not_space h
  | number => exact Lexer.IsLexeme.last_not_space h

theorem Genuine.ne_nil (h : t.Genuine d) : t.text ≠ [] := by
  obtain ⟨kind, text⟩ := t
  rintro rfl
  cases kind with
  | regExp =>
    obtain ⟨-, body, hbody, -⟩ := h
    cases hbody
  | plain =>
    obtain ⟨c, hc, -⟩ := h
    cases hc
  | number =>
    obtain ⟨c, hc, -⟩ := h
    cases hc

/-- Blanks, line feeds and the ends of statements glue to nothing. -/
def loose : List Char := [' ', '\t', '\n', ';', '\x7d']

theorem loose_classes : ∀ c ∈ loose, Literal.touchesNumber c = false ∧ c ≠ '.'
    ∧ Literal.wordGoesOn c = false ∧ Text.isIdentPart c = false ∧ Text.isDigit c = false :=
  Literal.forall_chars (by decide)

theorem loose_signs : ∀ c ∈ loose, ∀ m ∈ Punctuator.table.map Punctuator.spelling
    ++ Lexer.commentMarks, c ∈ m → m = [c] := Literal.forall_chars (by decide)

theorem Genuine.glues_loose (h : t.Genuine d) {c : Char} (hc : c ∈ loose) : t.glues c = false := by
  obtain ⟨hnumber, hdot, hword, hpart, hdigit⟩ := loose_classes c hc
  have hne := h.ne_nil
  have hsign : Lexer.signGoesOn t.text c = false := by
    rw [Lexer.signGoesOn, Bool.or_eq_false_iff, List.any_eq_false]
    refine ⟨fun m hm hprefix => ?_, by simp [hdigit]⟩
    have hmem : c ∈ m := (List.isPrefixOf_iff_prefix.mp hprefix).subset (by simp)
    have hlen := (List.isPrefixOf_iff_prefix.mp hprefix).length_le
    rw [loose_signs c hc m hm hmem] at hlen
    simp only [List.length_append, List.length_singleton] at hlen
    exact hne (List.length_eq_zero_iff.mp (by omega))
  have hlexer : Lexer.glues t.text c = false := by
    simp [Lexer.glues, hnumber, hdot, hword, hsign]
  cases hk : t.kind with
  | regExp => simpa [glues, hk] using hpart
  | plain => simpa [glues, hk] using hlexer
  | number => simpa [glues, hk] using hlexer

end Written

/-- A genuine token in front of a text that does not glue to it. -/
theorem Feeds.written {d : Dialect} {fresh b : Bool} {t : Written} {text : List Char}
    {ws : List Word} {tail : List String} (ht : t.Genuine d)
    (hg : ∀ c ∈ text.head?, t.glues c = false) (h : Feeds d false text ws tail) :
    Feeds d fresh (t.text ++ text) (⟨t.sym d, b⟩ :: ws) tail := by
  obtain ⟨kind, t⟩ := t
  have hlexeme : Lexer.IsLexeme d t (classify d t) →
      (∀ c ∈ text.head?, Lexer.glues t c = false) →
      Feeds d fresh (t ++ text) (⟨classify d t, b⟩ :: ws) tail := by
    intro ht hg
    obtain ⟨c, hc, hl⟩ := ht
    have htags := (Lexer.lexeme_kind hc hl).tags
    exact Feeds.lexeme ⟨c, hc, hl⟩ htags.1 htags.2.1 rfl hg h
  cases kind with
  | regExp => exact Feeds.regExp ht rfl rfl hg h
  | plain => exact hlexeme ht hg
  | number => exact hlexeme ht hg

end ScriptPress
