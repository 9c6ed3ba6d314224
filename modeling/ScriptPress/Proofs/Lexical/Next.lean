import ScriptPress.Proofs.Lexical.Feed

/-! # The lexer's next token

What a text feeds to the grammar is what the lexer reads from it. The other way round, every token
the lexer reads is a lexeme as spelled, and every comment it collects is a comment of its own.
-/
namespace ScriptPress

namespace Token

/-- The text behind a slash, when the lexer has read a token that begins with one. -/
def reopen (slash : Token) (rest : List Char) : List Char :=
  if slash.tag == .assign then '=' :: rest else rest

end Token

namespace Lexer

/-- The texts of the comments a lexer has collected. -/
def heard (lx : Lexer) : List String := lx.comments.map Comment.text

theorem commentsFrom_text (position line : Nat) (pieces : List Gap.Piece) :
    (Gap.commentsFrom position line pieces).map Comment.text = Gap.kept true pieces := by
  induction pieces generalizing position line with
  | nil => rfl
  | cons piece pieces ih =>
    cases piece with
    | blanks text => simpa [Gap.commentsFrom, Gap.kept] using ih _ _
    | comment block text => simpa [Gap.commentsFrom, Gap.kept] using ih _ _

theorem heard_pass (lx : Lexer) (gap : Gap) :
    (lx.pass gap).heard = lx.heard ++ Gap.kept lx.keepComments gap.pieces := by
  simp only [pass, heard]
  split
  · next h => rw [List.map_append, commentsFrom_text, h]
  · next h => simp [Gap.kept, h]

/-- What one lexer keeps of another: the dialect and whether comments are kept. -/
def Like (lx other : Lexer) : Prop :=
  lx.dialect = other.dialect ∧ lx.keepComments = other.keepComments

theorem next_finish {lx : Lexer} {pieces : List Gap.Piece}
    (h : Gap.scanFrom (.between lx.fresh) lx.rest = ⟨pieces, none, []⟩) :
    ∃ t lx', lx.next = (.ok t, lx') ∧ t.tag = .endOfInput
      ∧ lx'.heard = lx.heard ++ Gap.kept lx.keepComments pieces ∧ lx'.Like lx := by
  have hscan : Gap.scan lx.fresh lx.rest = ⟨pieces, none, []⟩ := h
  have hrest : (lx.pass ⟨pieces, none, []⟩).rest = [] := rfl
  simp only [next, hscan, hrest]
  exact ⟨_, _, rfl, rfl, heard_pass _ _, rfl, rfl⟩

theorem next_token {lx : Lexer} {pieces : List Gap.Piece} {c : Char} {text taken rest : List Char}
    {s : Sym} (h : Gap.scanFrom (.between lx.fresh) lx.rest = ⟨pieces, none, text⟩)
    (hc : text.head? = some c) (hl : lexeme lx.dialect c text = .ok (.of s taken rest)) :
    ∃ t lx', lx.next = (.ok t, lx') ∧ t.sym = s ∧ t.newlineBefore = Gap.breaks pieces
      ∧ lx'.rest = rest ∧ lx'.fresh = false
      ∧ lx'.heard = lx.heard ++ Gap.kept lx.keepComments pieces ∧ lx'.Like lx := by
  have hscan : Gap.scan lx.fresh lx.rest = ⟨pieces, none, text⟩ := h
  obtain ⟨b, more, rfl⟩ : ∃ b more, text = b :: more := by
    cases text with
    | nil => cases hc
    | cons b more => exact ⟨b, more, rfl⟩
  obtain rfl : b = c := by simpa using hc
  have hrest : (lx.pass ⟨pieces, none, b :: more⟩).rest = b :: more := rfl
  have hdialect : (lx.pass ⟨pieces, none, b :: more⟩).dialect = lx.dialect := rfl
  simp only [next, hscan, hrest, hdialect, hl]
  exact ⟨_, _, rfl, rfl, rfl, rfl, rfl, heard_pass _ _, rfl, rfl⟩

/-- What a token that was read tells about the text it came from. -/
structure Read (lx : Lexer) (t : Token) (lx' : Lexer) : Prop where
  like : lx'.Like lx
  heard : ∃ more, lx'.heard = lx.heard ++ more ∧ ∀ c ∈ more, Gap.IsComment c.toList
  genuine : t.tag = .endOfInput ∨ (t.tag ≠ .endOfInput ∧ t.tag ≠ .regExp
    ∧ IsLexeme lx.dialect t.sym.spelling.toList t.sym)
  slash : t.isSlash = true → ∀ c ∈ (t.reopen lx'.rest).head?, c ≠ '/' ∧ c ≠ '*'

/-- Behind a slash that is no comment stands what a pattern may begin with. -/
theorem slash_rest {d : Dialect} {fresh : Bool} {taken rest : List Char} {t : Token}
    (hs : Gap.Stops fresh (taken ++ rest)) (hk : Kind d taken t.sym)
    (ht : t.isSlash = true) : ∀ c ∈ (t.reopen rest).head?, c ≠ '/' ∧ c ≠ '*' := by
  have hline := hs.line
  have hblock := hs.block
  simp only [Gap.opensLineComment, Bool.or_eq_false_iff] at hline
  intro c hc
  obtain ⟨htag, rfl⟩ | ⟨htag, rfl⟩ := hk.tags.2.2 ht
  · have hre : t.reopen rest = rest := by
      rw [Token.reopen, if_neg (by simp [show t.tag = .div from htag])]
    rw [hre] at hc
    cases rest with
    | nil => cases hc
    | cons b rest =>
      obtain rfl : b = c := by simpa using hc
      refine ⟨?_, ?_⟩
      · rintro rfl
        simp at hline
      · rintro rfl
        simp [Gap.opensBlockComment] at hblock
  · have hre : t.reopen rest = '=' :: rest := by
      rw [Token.reopen, if_pos (by simp [show t.tag = .assign from htag])]
    rw [hre] at hc
    obtain rfl : '=' = c := by simpa using hc
    decide

theorem next_read {lx lx' : Lexer} {t : Token} (h : lx.next = (.ok t, lx')) : Read lx t lx' := by
  obtain ⟨⟨pieces, unfinished, text⟩, hscan⟩ : ∃ gap, Gap.scan lx.fresh lx.rest = gap := ⟨_, rfl⟩
  cases unfinished with
  | some comment => simp [next, hscan] at h
  | none =>
    have hgap : Gap.scanFrom (.between lx.fresh) lx.rest = ⟨pieces, none, text⟩ := hscan
    have hheard : (lx.pass ⟨pieces, none, text⟩).heard
        = lx.heard ++ Gap.kept lx.keepComments pieces := heard_pass _ _
    have hcomments := Gap.kept_comments lx.keepComments hgap
    cases text with
    | nil =>
      obtain ⟨t', lx'', hnext, htag, hh, hlike⟩ := next_finish hgap
      rw [h] at hnext
      obtain ⟨rfl, rfl⟩ : t = t' ∧ lx' = lx'' := by simpa using hnext
      refine ⟨hlike, ⟨_, hh, hcomments⟩, Or.inl htag, fun hs => ?_⟩
      simp [Token.isSlash, htag] at hs
    | cons c rest =>
      cases hl : lexeme lx.dialect c (c :: rest) with
      | error fault =>
        have hrest : (lx.pass ⟨pieces, none, c :: rest⟩).rest = c :: rest := rfl
        have hdialect : (lx.pass ⟨pieces, none, c :: rest⟩).dialect = lx.dialect := rfl
        simp [next, hscan, hrest, hdialect, hl] at h
      | ok l =>
        have hl' : lexeme lx.dialect c (c :: rest) = .ok (.of l.sym l.taken l.rest) := hl
        obtain ⟨t', lx'', hnext, hsym, -, hrest, -, hh, hlike⟩ := next_token hgap rfl hl'
        rw [h] at hnext
        obtain ⟨rfl, rfl⟩ : t = t' ∧ lx' = lx'' := by simpa using hnext
        obtain ⟨hsplit, -, hlexeme⟩ := lexeme_ok rfl hl'
        have hkind := lexeme_kind rfl hl'
        rw [← hsym] at hlexeme hkind
        have hstops := Gap.stops_rest hgap
        rw [hsplit] at hstops
        refine ⟨hlike, ⟨_, hh, hcomments⟩, Or.inr ⟨hkind.tags.2.1, hkind.tags.1, hlexeme⟩, ?_⟩
        rw [hrest]
        exact slash_rest hstops hkind

/-- A token that shows a symbol: the symbol's own token, or the slash a pattern hides behind.
`after` is the text behind the symbol. -/
inductive Shows (d : Dialect) (s : Sym) (t : Token) (rest after : List Char) : Prop
  | plain : s.tag ≠ .regExp → s.tag ≠ .endOfInput → t.sym = s → rest = after →
      Shows d s t rest after
  | pattern {body} : t.isSlash = true → d.hasRegExpLiterals = true →
      s = .pattern ('/' :: body) → Literal.regExp (t.reopen rest) = .token body after →
      Shows d s t rest after

theorem slash_sign : ∀ q ∈ Punctuator.table, q.spelling.head? = some '/' →
    q.spelling = ['/'] ∨ q.spelling = ['/', '='] := by
  decide

/-- No sign goes on from a slash but by an equals sign, and none from there. -/
theorem slash_ends {c : Char} (more : List Char) (h : more = [] → c ≠ '=') :
    ∀ q ∈ Punctuator.table, ('/' :: more ++ [c]).isPrefixOf q.spelling = false := by
  intro q hq
  by_contra hprefix
  simp only [Bool.not_eq_false, List.isPrefixOf_iff_prefix] at hprefix
  obtain ⟨after, hafter⟩ := hprefix
  rcases slash_sign q hq (by rw [← hafter]; rfl) with hs | hs
  · rw [hs] at hafter
    simp at hafter
  · rw [hs] at hafter
    cases more with
    | nil =>
      obtain ⟨rfl, -⟩ : c = '=' ∧ after = [] := by simpa using hafter
      exact h rfl rfl
    | cons b more => simp at hafter

/-- A slash before a pattern is read as a sign. -/
theorem lexeme_slash (d : Dialect) (body : List Char) :
    ∃ s taken rest, lexeme d '/' ('/' :: body) = .ok (.of s taken rest) ∧ s.tag ≠ .endOfInput
      ∧ ∀ t : Token, t.sym = s → t.isSlash = true ∧ t.reopen rest = body := by
  have hn : opensNumber ('/' :: body) = false := rfl
  have hw : opensWord ('/' :: body) = false := by
    have : Text.isIdentStart '/' = false := by decide
    simp [opensWord, this]
  have hs : opensString ('/' :: body) = false := rfl
  rw [lexeme_eq rfl]
  simp only [hn, hw, hs, Bool.false_eq_true, if_false, signLexeme]
  by_cases hbody : ∃ rest, body = '=' :: rest
  · obtain ⟨rest, rfl⟩ := hbody
    have hp : ⟨['/', '='], .assign, some .div⟩ ∈ Punctuator.table := by decide
    have hlong : Punctuator.longest? ('/' :: '=' :: rest) = some ⟨['/', '='], .assign, some .div⟩ :=
      longest_append hp fun c _ => slash_ends ['='] (by simp)
    rw [hlong]
    refine ⟨⟨.assign, some .div, none⟩, _, _, rfl, by simp, fun t ht => ?_⟩
    have htag : t.tag = .assign := congrArg Sym.tag ht
    have hdatum : t.datum = some .div := congrArg Sym.datum ht
    exact ⟨by simp [Token.isSlash, htag, hdatum], by simp [Token.reopen, htag]⟩
  · have hp : ⟨['/'], .div, none⟩ ∈ Punctuator.table := by decide
    have hlong : Punctuator.longest? ('/' :: body) = some ⟨['/'], .div, none⟩ := by
      refine longest_append hp fun c hc => slash_ends [] fun _ hceq => hbody ?_
      cases body with
      | nil => cases hc
      | cons b body =>
        obtain rfl : b = c := by simpa using hc
        exact ⟨body, by rw [hceq]⟩
    rw [hlong]
    refine ⟨⟨.div, none, none⟩, _, _, rfl, by simp, fun t ht => ?_⟩
    have htag : t.tag = .div := congrArg Sym.tag ht
    exact ⟨by simp [Token.isSlash, htag], by simp [Token.reopen, htag]⟩

/-- The comments that are heard when comments are kept, or none are. -/
def hears (keep : Bool) (cs : List String) : List String := if keep then cs else []

theorem kept_hears (keep : Bool) (pieces : List Gap.Piece) :
    Gap.kept keep pieces = hears keep (Gap.kept true pieces) := by
  cases keep <;> rfl

/-- The lexer reads the words that its text feeds, one by one. -/
theorem next_feeds {lx : Lexer} {w : Word} {ws : List Word} {tail : List String}
    (h : Feeds lx.dialect lx.fresh lx.rest (w :: ws) tail) :
    ∃ t lx' after, lx.next = (.ok t, lx') ∧ (t.newlineBefore = true → w.lead.breaks = true)
      ∧ Shows lx.dialect w.sym t lx'.rest after ∧ Feeds lx.dialect false after ws tail
      ∧ lx'.heard = lx.heard ++ hears lx.keepComments w.lead.remarks
      ∧ lx'.fresh = false ∧ lx'.Like lx := by
  cases h with
  | word hs hc hr he hl hb hm hf =>
    obtain ⟨t, lx', hnext, hsym, hbreak, hrest, hfresh, hheard, hlike⟩ := next_token hs
      (head_append hc) hl
    rw [kept_hears, ← hm] at hheard
    exact ⟨t, lx', _, hnext, by rw [hbreak]; exact hb, .plain hr he hsym hrest, hf, hheard,
      hfresh, hlike⟩
  | pattern hs hd hr hw hb hm hf =>
    obtain ⟨s, taken, rest, hl, -, hslash⟩ := lexeme_slash lx.dialect (_ ++ _)
    obtain ⟨t, lx', hnext, hsym, hbreak, hrest, hfresh, hheard, hlike⟩ := next_token hs rfl hl
    obtain ⟨hs, hre⟩ := hslash t hsym
    rw [kept_hears, ← hm] at hheard
    refine ⟨t, lx', _, hnext, by rw [hbreak]; exact hb, .pattern hs hd hw ?_, hf, hheard, hfresh,
      hlike⟩
    rw [hrest, hre, hr]

theorem next_feeds_nil {lx : Lexer} {tail : List String}
    (h : Feeds lx.dialect lx.fresh lx.rest [] tail) :
    ∃ t lx', lx.next = (.ok t, lx') ∧ t.tag = .endOfInput
      ∧ lx'.heard = lx.heard ++ hears lx.keepComments tail ∧ lx'.Like lx := by
  cases h with
  | finish hs =>
    obtain ⟨t, lx', hnext, htag, hheard, hlike⟩ := next_finish hs
    exact ⟨t, lx', hnext, htag, by rw [hheard, kept_hears], hlike⟩

end Lexer
end ScriptPress
