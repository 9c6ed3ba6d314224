import ScriptPress.CommentRemoval
import ScriptPress.Proofs.Lexical.Lexeme

/-! # What stands before a slash

A slash divides behind an operand and begins a regular expression where an operand can begin. Which
of the two it is shows in the token before it, but not always: some tokens end an operand here and
stand before one there.
-/
namespace ScriptPress

namespace Token

/-- A token that an operand can end with. A step behind an operand stands on the same line. -/
def endsOperand (t : Token) : Bool :=
  match t.tag with
  | .identifier | .number | .string | .regExp | .primary | .reserved | .rightParen | .rightBracket
  | .rightBrace => true
  | .increment | .decrement => !t.newlineBefore
  | _ => false

/-- A token that an operand can stand behind, be it at the beginning of a statement. -/
def precedesOperand (t : Token) : Bool :=
  match t.tag with
  | .number | .string | .regExp | .primary | .rightParen | .rightBracket => false
  | _ => true

/-- The operators that stand behind an operand, a slash and those that begin with `>` among them. -/
def followsOperand (t : Token) : Bool :=
  t.tag == .div || t.tag == .assign || t.tag == .relation || t.tag == .shift

theorem followsOperand_of_isSlash {t : Token} (h : t.isSlash = true) : t.followsOperand = true := by
  simp only [isSlash, Bool.or_eq_true, Bool.and_eq_true] at h
  obtain h | ⟨h, -⟩ := h <;> simp [followsOperand, h]

/-! ## Tokens of the same symbol -/

variable {t t' : Token}

theorem tag_of_sym (h : t'.sym = t.sym) : t'.tag = t.tag := congrArg Sym.tag h

theorem datum_of_sym (h : t'.sym = t.sym) : t'.datum = t.datum := congrArg Sym.datum h

theorem isSlash_of_sym (h : t'.sym = t.sym) : t'.isSlash = t.isSlash := by
  rw [isSlash, tag_of_sym h, datum_of_sym h, ← isSlash]

end Token

namespace SlashReader.Context

/-- The last token ends an operand. -/
def ended (c : Context) : Bool := c.previous.any Token.endsOperand

/-- An operand can begin behind the last token. -/
def begins (c : Context) : Bool := c.headerClosed || c.previous.all Token.precedesOperand

/-- What is known of the tokens once more of them were read. -/
def after (c : Context) (tokens : List Token) : Context := tokens.foldl byContext.note c

/-- Only a parenthesis closes a header. -/
def Sound (c : Context) : Prop :=
  c.headerClosed = true → ∃ p, c.previous = some p ∧ p.tag = .rightParen

/-- A token in its place: an operator behind its operand, and a regular expression where an operand
can begin. -/
structure Fits (c : Context) (t : Token) : Prop where
  operator : t.followsOperand = true → c.ended = true
  pattern : t.tag = .regExp → c.begins = true

/-- The reader of a dialect takes a slash for what it is. -/
structure Judges (d : Dialect) (c : Context) (t : Token) : Prop where
  slash : t.isSlash = true → (CommentRemoval.reader d).opensRegExp c t = false
  pattern : t.tag = .regExp → (CommentRemoval.reader d).opensRegExp c t = true

/-- A slash that the token before it tells wrong: one that divides behind a brace, behind a reserved
word or behind parentheses like those of a header, and one that begins a regular expression behind a
name or behind a step. -/
def misleads (d : Dialect) (c : Context) (t : Token) : Bool :=
  if t.isSlash then
    d.hasRegExpLiterals
      && (c.headerClosed || c.previous.any fun p => p.tag == .rightBrace || p.tag == .reserved)
  else
    t.tag == .regExp
      && c.previous.any fun p => p.tag == .identifier || p.tag == .increment || p.tag == .decrement

variable {c : Context} {t : Token} {ts : List Token} {d : Dialect}

/-! ## One token more -/

theorem note_plain (h : t.tag ≠ .leftParen) (h' : t.tag ≠ .rightParen) :
    byContext.note c t = { previous := some t, headers := c.headers } := by
  unfold byContext
  dsimp only
  split
  · contradiction
  · contradiction
  · rfl

theorem note_open (h : t.tag = .leftParen) : byContext.note c t
    = { previous := some t, headers := c.previous.any opensHeader :: c.headers } := by
  simp only [byContext, h]

theorem note_close (h : t.tag = .rightParen) : byContext.note c t
    = { previous := some t, headers := c.headers.tail,
        headerClosed := c.headers.head?.getD false } := by
  simp only [byContext, h]

theorem note_previous (c : Context) (t : Token) : (byContext.note c t).previous = some t := by
  unfold byContext
  dsimp only
  split <;> rfl

theorem sound_note (c : Context) (t : Token) : (byContext.note c t).Sound := by
  intro h
  refine ⟨t, note_previous c t, ?_⟩
  by_cases hclose : t.tag = .rightParen
  · exact hclose
  by_cases hopen : t.tag = .leftParen
  · simp [note_open hopen] at h
  · simp [note_plain hopen hclose] at h

/-! ## What the token before a slash tells -/

theorem reader_opensRegExp (d : Dialect) (c : Context) (t : Token) :
    (CommentRemoval.reader d).opensRegExp c t
      = (d.hasRegExpLiterals && (c.headerClosed || c.previous.all Token.allowsRegExp)) := rfl

theorem allowsRegExp_of_endsOperand {p : Token} (h : p.endsOperand = true) :
    p.allowsRegExp = (p.tag == .rightBrace || p.tag == .reserved) := by
  obtain ⟨tag⟩ := p
  cases tag <;> first | rfl | cases h

theorem allowsRegExp_of_precedesOperand {p : Token} (h : p.precedesOperand = true) :
    p.allowsRegExp = !(p.tag == .identifier || p.tag == .increment || p.tag == .decrement) := by
  obtain ⟨tag⟩ := p
  cases tag <;> first | rfl | cases h

theorem Fits.misleads_slash (h : c.Fits t) (ht : t.isSlash = true) :
    c.misleads d t = (CommentRemoval.reader d).opensRegExp c t := by
  have hended := h.operator (Token.followsOperand_of_isSlash ht)
  rw [misleads, if_pos ht, reader_opensRegExp]
  cases hprevious : c.previous with
  | none => simp [ended, hprevious] at hended
  | some p =>
    have hp : p.endsOperand = true := by simpa [ended, hprevious] using hended
    rw [Option.any_some, Option.all_some, allowsRegExp_of_endsOperand hp]

theorem Fits.misleads_pattern (hc : c.Sound) (h : c.Fits t) (ht : t.tag = .regExp)
    (hd : d.hasRegExpLiterals = true) :
    c.misleads d t = !(CommentRemoval.reader d).opensRegExp c t := by
  have hslash : t.isSlash = false := by simp [Token.isSlash, ht]
  have hbegins := h.pattern ht
  rw [misleads, hslash, if_neg Bool.false_ne_true, reader_opensRegExp, ht, hd]
  cases hprevious : c.previous with
  | none => simp
  | some p =>
    cases hclosed : c.headerClosed with
    | true =>
      obtain ⟨q, hq, htag⟩ := hc hclosed
      obtain rfl : p = q := Option.some.inj (hprevious.symm.trans hq)
      simp [htag]
    | false =>
      have hp : p.precedesOperand = true := by simpa [begins, hprevious, hclosed] using hbegins
      simp [allowsRegExp_of_precedesOperand hp]

/-- Where a token is in its place, the reader is wrong about it just where the token before it tells
it wrong. -/
theorem judges_iff (hc : c.Sound) (h : c.Fits t)
    (hd : t.tag = .regExp → d.hasRegExpLiterals = true) :
    c.Judges d t ↔ c.misleads d t = false := by
  by_cases hslash : t.isSlash = true
  · have htag : t.tag ≠ .regExp := fun htag => by simp [Token.isSlash, htag] at hslash
    rw [h.misleads_slash hslash]
    exact ⟨fun hj => hj.slash hslash, fun hm => ⟨fun _ => hm, fun ht => absurd ht htag⟩⟩
  by_cases htag : t.tag = .regExp
  · rw [h.misleads_pattern hc htag (hd htag), Bool.not_eq_false']
    exact ⟨fun hj => hj.pattern htag, fun hm => ⟨fun hs => absurd hs hslash, fun _ => hm⟩⟩
  · refine iff_of_true ⟨fun hs => absurd hs hslash, fun ht => absurd ht htag⟩ ?_
    rw [misleads, if_neg hslash, beq_eq_false_iff_ne.mpr htag, Bool.false_and]

/-! ## The tokens of a text -/

/-- What holds of each token and what is known of the tokens before it. -/
def Along (P : Context → Token → Prop) : Context → List Token → Prop
  | _, [] => True
  | c, t :: ts => P c t ∧ Along P (byContext.note c t) ts

/-- Some slash among the tokens is told wrong by the token before it. -/
def misled (d : Dialect) : Context → List Token → Bool
  | _, [] => false
  | c, t :: ts => c.misleads d t || misled d (byContext.note c t) ts

variable {P Q : Context → Token → Prop}

theorem along_concat : Along P c (ts ++ [t]) ↔ Along P c ts ∧ P (c.after ts) t := by
  induction ts generalizing c with
  | nil => exact and_comm
  | cons u ts ih => rw [List.cons_append, Along, Along, ih, and_assoc]; rfl

/-- There is nothing to judge at the end of a text. -/
theorem along_judges_end (hend : t.tag = .endOfInput) :
    Along (Judges d) c (ts ++ [t]) ↔ Along (Judges d) c ts := by
  refine along_concat.trans (and_iff_left ⟨?_, ?_⟩)
  · simp [Token.isSlash, hend]
  · simp [hend]

theorem after_concat (c : Context) (ts : List Token) (t : Token) :
    c.after (ts ++ [t]) = byContext.note (c.after ts) t := by
  simp [after]

theorem along_judges_iff (hc : c.Sound) (h : Along Fits c ts)
    (hd : ∀ t ∈ ts, t.tag = .regExp → d.hasRegExpLiterals = true) :
    Along (Judges d) c ts ↔ misled d c ts = false := by
  induction ts generalizing c with
  | nil => exact iff_of_true trivial rfl
  | cons t ts ih =>
    obtain ⟨ht, hts⟩ := List.forall_mem_cons.mp hd
    rw [Along, misled, Bool.or_eq_false_iff, judges_iff hc h.1 ht, ih (sound_note c t) h.2 hts]

/-! ## Tokens of the same symbols

What is known of tokens depends on their tags and on the headers, not on where the tokens stand.
-/

/-- What the judgement of a slash depends on: the tag of the token before it, and the headers. -/
def Alike (c c' : Context) : Prop :=
  c.previous.map Token.tag = c'.previous.map Token.tag ∧ c.headers = c'.headers
    ∧ c.headerClosed = c'.headerClosed

variable {c' : Context} {t' : Token} {ts' : List Token}

theorem Alike.refl (c : Context) : Alike c c := ⟨rfl, rfl, rfl⟩

theorem Alike.previous {p : Token → Bool} (hp : ∀ a b : Token, a.tag = b.tag → p a = p b)
    (h : Alike c c') : c.previous.map p = c'.previous.map p := by
  have htag := h.1
  cases hs : c.previous with
  | none =>
    cases hs' : c'.previous with
    | none => rfl
    | some b => simp [hs, hs'] at htag
  | some a =>
    cases hs' : c'.previous with
    | none => simp [hs, hs'] at htag
    | some b => exact congrArg some (hp a b (by simpa [hs, hs'] using htag))

theorem Alike.any {p : Token → Bool} (hp : ∀ a b : Token, a.tag = b.tag → p a = p b)
    (h : Alike c c') : c.previous.any p = c'.previous.any p := by
  have hany := congrArg (Option.any id) (h.previous hp)
  rwa [Option.any_map, Option.any_map] at hany

theorem Alike.all {p : Token → Bool} (hp : ∀ a b : Token, a.tag = b.tag → p a = p b)
    (h : Alike c c') : c.previous.all p = c'.previous.all p := by
  have hall := congrArg (Option.all id) (h.previous hp)
  rwa [Option.all_map, Option.all_map] at hall

theorem Alike.opensRegExp (h : Alike c c') (t t' : Token) :
    (CommentRemoval.reader d).opensRegExp c t = (CommentRemoval.reader d).opensRegExp c' t' := by
  have hall := h.all (p := Token.allowsRegExp) fun a b hab => by
    simp only [Token.allowsRegExp, hab]
  rw [reader_opensRegExp, reader_opensRegExp, h.2.2, hall]

theorem Alike.note (h : Alike c c') (ht : t.tag = t'.tag) :
    Alike (byContext.note c t) (byContext.note c' t') := by
  have hany := h.any (p := opensHeader) fun a b hab => by simp only [opensHeader, hab]
  simp only [byContext, ht, hany, h.2.1]
  split <;> exact ⟨by simp [ht], rfl, rfl⟩

theorem Judges.alike (hj : Judges d c t) (h : Alike c c') (ht : t'.sym = t.sym) :
    Judges d c' t' := by
  constructor
  · intro hslash
    rw [← h.opensRegExp t]
    exact hj.slash (Token.isSlash_of_sym ht ▸ hslash)
  · intro htag
    rw [← h.opensRegExp t]
    exact hj.pattern ((Token.tag_of_sym ht).symm.trans htag)

theorem Alike.misleads (h : Alike c c') (ht : t'.sym = t.sym) :
    c'.misleads d t' = c.misleads d t := by
  have htag := Token.tag_of_sym ht
  have hslash := h.any (p := fun p => p.tag == .rightBrace || p.tag == .reserved) fun a b hab => by
    simp only [hab]
  have hpattern := h.any (p := fun p => p.tag == .identifier || p.tag == .increment
    || p.tag == .decrement) fun a b hab => by simp only [hab]
  rw [Context.misleads, Context.misleads, Token.isSlash_of_sym ht, htag, hslash, hpattern, h.2.2]

theorem Along.alike (hj : Along (Judges d) c ts) (h : Alike c c')
    (hts : ts'.map Token.sym = ts.map Token.sym) : Along (Judges d) c' ts' := by
  induction ts generalizing c c' ts' with
  | nil =>
    obtain rfl := List.map_eq_nil_iff.mp hts
    trivial
  | cons t ts ih =>
    obtain ⟨t', ts', rfl, ht, hts⟩ := List.map_eq_cons_iff.mp hts
    exact ⟨hj.1.alike h ht, ih hj.2 (h.note (Token.tag_of_sym ht).symm) hts⟩

/-- Whether a slash is told wrong does not depend on where the tokens stand. -/
theorem misled_alike (h : Alike c c') (hts : ts'.map Token.sym = ts.map Token.sym) :
    misled d c' ts' = misled d c ts := by
  induction ts generalizing c c' ts' with
  | nil =>
    obtain rfl := List.map_eq_nil_iff.mp hts
    rfl
  | cons t ts ih =>
    obtain ⟨t', ts', rfl, ht, hts⟩ := List.map_eq_cons_iff.mp hts
    rw [misled, misled, h.misleads ht, ih (h.note (Token.tag_of_sym ht).symm) hts]

end SlashReader.Context
end ScriptPress
