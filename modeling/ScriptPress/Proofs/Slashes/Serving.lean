import ScriptPress.Proofs.Progress.Lexer
import ScriptPress.Proofs.Removal.Scan
import ScriptPress.Proofs.Slashes.Context

/-! # The tokens that a lexer serves

From a token and the lexer behind it on, the tokens to the end of the input are settled but for the
slashes, each of which may be read again. A stream reads those again that its reader takes for
regular expressions, so that it comes to the tokens of another reading of the text just where its
reader judges every slash as that reading did.
-/
namespace ScriptPress

/-- What a symbol is when the lexer comes to it: a regular expression is a slash at first. -/
def Sym.face (s : Sym) : Sym :=
  if s.tag = .regExp then
    if ['/', '='].isPrefixOf (s.text.getD "").toList then ⟨.assign, some .div, none⟩
    else ⟨.div, none, none⟩
  else s

namespace Lexer

/-- The tokens that can be taken from a token and the lexer behind it on, each with the comments in
front of it. A slash is taken as it is or read again. -/
inductive Serves : Lexer → Token → List Comment → List (Token × List Comment) → Prop
  | finish {lx t cs} : t.tag = .endOfInput → Serves lx t cs [(t, cs)]
  | take {lx t cs next lx' ts} : t.tag ≠ .endOfInput → lx.next = (.ok next, lx') →
      Serves { lx' with comments := [] } next lx'.comments ts → Serves lx t cs ((t, cs) :: ts)
  | again {lx slash cs t lx' ts} : slash.isSlash = true → lx.rescan slash = (.ok t, lx') →
      Serves lx' t cs ts → Serves lx slash cs ts

/-- The tokens that can be taken from a lexer on. -/
def Yields (lx : Lexer) (ts : List (Token × List Comment)) : Prop :=
  ∃ t lx', lx.next = (.ok t, lx') ∧ Serves { lx' with comments := [] } t lx'.comments ts

variable {lx lx' : Lexer} {t slash : Token} {cs : List Comment} {ts : List (Token × List Comment)}

theorem rescan_tag (h : lx.rescan slash = (.ok t, lx')) : t.tag = .regExp := by
  obtain ⟨-, -, htag, -⟩ := rescan_inv h
  exact htag

theorem next_tag (h : lx.next = (.ok t, lx')) : t.tag ≠ .regExp := by
  rcases (next_read h).genuine with htag | ⟨-, htag, -⟩
  · simp [htag]
  · exact htag

/-- A regular expression is taken as it is. -/
theorem Serves.pattern (h : Serves lx t cs ts) (ht : t.tag = .regExp) :
    ∃ more, ts = (t, cs) :: more ∧ lx.Yields more := by
  cases h with
  | finish hend => simp [ht] at hend
  | take _ hnext hmore => exact ⟨_, rfl, _, _, hnext, hmore⟩
  | again hslash => simp [Token.isSlash, ht] at hslash

/-- Only a dialect that has regular expressions reads slashes again. -/
theorem Serves.hasRegExpLiterals {d : Dialect} (h : Serves lx t cs ts) (hd : lx.dialect = d)
    (ht : t.tag = .regExp → d.hasRegExpLiterals = true) :
    ∀ p ∈ ts, p.1.tag = .regExp → d.hasRegExpLiterals = true := by
  induction h with
  | finish => simpa using ht
  | take _ hnext _ ih =>
    refine List.forall_mem_cons.mpr ⟨ht, ?_⟩
    exact ih ((next_read hnext).like.1.trans hd) fun htag => absurd htag (next_tag hnext)
  | again _ hrescan _ ih =>
    obtain ⟨_, -, -, -, -, -, -, -, -, -, hlike⟩ := rescan_inv hrescan
    exact ih (hlike.1.trans hd) fun _ => hd ▸ (CommentRemoval.rescan_pattern hrescan).1

/-! ## Slashes -/

theorem slash_tags : ∀ p ∈ Punctuator.table,
    (p.spelling = ['/'] → p.tag = .div ∧ p.datum = none)
      ∧ (p.spelling = ['/', '='] → p.tag = .assign ∧ p.datum = some .div) := by
  decide

/-- Which of the two slashes the lexer comes to shows in the text behind the first character. -/
theorem slash_reopen (hnext : lx.next = (.ok slash, lx')) (hslash : slash.isSlash = true) :
    slash.sym = if ['='].isPrefixOf (slash.reopen lx'.rest) then ⟨.assign, some .div, none⟩
      else ⟨.div, none, none⟩ := by
  obtain ⟨gap, -, -, -, ⟨-, htag, -⟩ | ⟨c, l, hc, hl, hof, -, rfl⟩⟩ := next_inv hnext
  · simp [Token.isSlash, htag] at hslash
  rw [hof] at hl
  have htags : isSlashTags slash.tag slash.datum = true := hslash
  have hkind := (lexeme_kind hc hl).tags.2.2 htags
  change slash.sym = if ['='].isPrefixOf (slash.reopen l.rest) = true then _ else _
  cases spells_of_lexeme hc hl with
  | literal htag => rcases htag with h | h | h <;> simp [isSlashTags, h] at htags
  | name name htag => simp [isSlashTags, htag] at htags
  | keyword hk =>
    have hword : WordSym _ _ false _ := .keyword hk rfl
    exact absurd (htags.symm.trans hword.tags.2.2) (by simp)
  | sign p hp hslice htag hdatum htext hmax =>
    obtain ⟨-, hspelling⟩ | ⟨-, hspelling⟩ := hkind
    · obtain ⟨hdiv, hnone⟩ := (slash_tags p hp).1 (hslice.symm.trans hspelling)
      have hreopen : slash.reopen l.rest = l.rest := by
        rw [Token.reopen, htag, hdiv]
        rfl
      have hplain : ['='].isPrefixOf l.rest = false := by
        refine Bool.eq_false_iff.mpr fun hequals => ?_
        obtain ⟨rest, hrest⟩ := List.isPrefixOf_iff_prefix.mp hequals
        have hlonger := hmax ⟨['/', '='], .assign, some .div⟩ (by decide)
          ⟨rest, by rw [hspelling, ← hrest]; rfl⟩
        simp [hspelling] at hlonger
      rw [hreopen, hplain, if_neg Bool.false_ne_true, Token.sym, htag, hdatum, htext, hdiv, hnone]
    · obtain ⟨hassign, hsome⟩ := (slash_tags p hp).2 (hslice.symm.trans hspelling)
      have hreopen : slash.reopen l.rest = '=' :: l.rest := by
        rw [Token.reopen, htag, hassign]
        rfl
      rw [hreopen, if_pos (by simp), Token.sym, htag, hdatum, htext, hassign, hsome]

/-- A token that the lexer comes to is the face of the one that is taken. -/
theorem Serves.face (hnext : lx.next = (.ok t, lx'))
    (h : Serves { lx' with comments := [] } t cs ts) :
    ∃ p more, ts = (p, cs) :: more ∧ t.sym = p.sym.face ∧ t.newlineBefore = p.newlineBefore := by
  have hself : t.sym = t.sym.face := by
    rw [Sym.face, if_neg (show t.sym.tag ≠ .regExp from next_tag hnext)]
  cases h with
  | finish => exact ⟨t, _, rfl, hself, rfl⟩
  | take => exact ⟨t, _, rfl, hself, rfl⟩
  | @again _ _ _ p _ _ hslash hrescan hmore =>
    obtain ⟨more, rfl, -⟩ := hmore.pattern (rescan_tag hrescan)
    obtain ⟨-, body, hregExp, hsym, hbreaks⟩ := CommentRemoval.rescan_pattern hrescan
    refine ⟨p, more, rfl, ?_, hbreaks.symm⟩
    obtain ⟨hbody, -⟩ := Literal.regExp_token hregExp
    have hbody : t.reopen lx'.rest = body ++ _ := hbody
    rw [hsym, slash_reopen hnext hslash, hbody]
    cases body with
    | nil => exact absurd rfl (Literal.regExp_ne_nil hregExp)
    | cons c body => simp [Sym.face, Sym.pattern]

/-- Comments that were collected before play no part in reading a slash again. -/
theorem rescan_comments (h : { lx with comments := [] }.rescan slash = (.ok t, lx')) :
    lx.rescan slash = (.ok t, { lx' with comments := lx.comments }) := by
  simp only [rescan] at h ⊢
  split at h
  · cases h
  · next hd =>
    rw [if_neg hd]
    cases hscan : Literal.regExp (if slash.tag == .assign then '=' :: lx.rest else lx.rest) with
    | problem p taken =>
      rw [hscan] at h
      cases h
    | token taken rest =>
      rw [hscan] at h
      obtain ⟨rfl, rfl⟩ := (Prod.mk.inj h).imp_left Except.ok.inj
      rfl

theorem rescan_clear (h : lx.rescan slash = (.ok t, lx')) (hnone : lx.comments = []) :
    { lx' with comments := [] } = lx' := by
  obtain ⟨-, -, -, -, -, -, -, -, -, hcomments, -⟩ := rescan_inv h
  rw [← hnone, ← hcomments]

end Lexer

/-! ## Streams -/

namespace TokenStream
open CommentRemoval (reader)
open SlashReader (Context byContext)
open SlashReader.Context (Along Judges)
variable {d : Dialect} {seen : Context} {lx lx' : Lexer} {t : Token}
  {ts : List (Token × List Comment)}

theorem readToken_judges (h : readToken (reader d) seen lx = (.ok t, lx')) : Judges d seen t := by
  unfold readToken at h
  split at h
  · cases h
  next slash after hnext =>
  split at h
  · next hagain =>
    have htag := Lexer.rescan_tag h
    exact ⟨fun hslash => by simp [Token.isSlash, htag] at hslash,
      fun _ => (Bool.and_eq_true_iff.mp hagain).2⟩
  · next hagain =>
    obtain ⟨rfl, rfl⟩ := (Prod.mk.inj h).imp_left Except.ok.inj
    refine ⟨fun hslash => ?_, fun htag => absurd htag (Lexer.next_tag hnext)⟩
    simpa [hslash] using hagain

/-- A stream judges slashes as its reader does. -/
theorem readFrom_judges (fuel : Nat) (seen : Context) (lx : Lexer) :
    Along (Judges d) seen ((readFrom (reader d) fuel seen lx).tokens.map Prod.fst) := by
  induction fuel generalizing seen lx with
  | zero => trivial
  | succ fuel ih =>
    rw [readFrom]
    split
    · trivial
    next t after hread =>
    dsimp only
    split
    · exact ⟨readToken_judges hread, trivial⟩
    · exact ⟨readToken_judges hread, ih _ _⟩

theorem readFrom_cons {bare : Lexer} {cs : List Comment} (fuel : Nat)
    (hread : readToken (reader d) seen lx = (.ok t, lx')) (hcomments : lx'.comments = cs)
    (hbare : { lx' with comments := [] } = bare) (htag : t.tag ≠ .endOfInput) :
    readFrom (reader d) (fuel + 1) seen lx
      = (readFrom (reader d) fuel (byContext.note seen t) bare).cons (t, cs) := by
  have htake : lx'.takeComments = (cs, bare) := by
    rw [Lexer.takeComments, hcomments, hbare]
  simp only [readFrom, hread, htake, beq_eq_false_iff_ne.mpr htag, Bool.false_eq_true, if_false]
  rfl

theorem readToken_plain (hnext : lx.next = (.ok t, lx')) (hj : Judges d seen t) :
    readToken (reader d) seen lx = (.ok t, lx') := by
  have hno : (t.isSlash && (reader d).opensRegExp seen t) = false := by
    cases hslash : t.isSlash with
    | false => rfl
    | true => exact hj.slash hslash
  simp only [readToken, hnext, hno, Bool.false_eq_true, if_false]

theorem readToken_again {slash : Token} {lx₂ : Lexer} (hnext : lx.next = (.ok slash, lx'))
    (hslash : slash.isSlash = true)
    (hrescan : { lx' with comments := [] }.rescan slash = (.ok t, lx₂)) (hj : Judges d seen t) :
    readToken (reader d) seen lx = (.ok t, { lx₂ with comments := lx'.comments }) := by
  have hopens : (slash.isSlash && (reader d).opensRegExp seen slash) = true := by
    rw [hslash, Bool.true_and]
    exact hj.pattern (Lexer.rescan_tag hrescan)
  simp only [readToken, hnext, hopens, if_true, Lexer.rescan_comments hrescan]

/-- A stream comes to the tokens that a lexer yields, where its reader judges every slash right. -/
theorem readFrom_yields {fuel : Nat} (h : lx.Yields ts)
    (hj : Along (Judges d) seen (ts.map Prod.fst)) (hfuel : ts.length ≤ fuel) :
    (readFrom (reader d) fuel seen lx).tokens = ts
      ∧ (readFrom (reader d) fuel seen lx).failure = none := by
  induction ts generalizing fuel seen lx with
  | nil =>
    obtain ⟨t, lx', hnext, h⟩ := h
    obtain ⟨p, more, hts, -⟩ := h.face hnext
    cases hts
  | cons u more ih =>
    obtain ⟨t, lx', hnext, h⟩ := h
    obtain ⟨fuel, rfl⟩ : ∃ k, fuel = k + 1 := ⟨fuel - 1, by rw [List.length_cons] at hfuel; omega⟩
    obtain ⟨hu, hj⟩ := hj
    generalize hcs : lx'.comments = cs at h
    generalize hlx : { lx' with comments := [] } = bare at h
    cases h with
    | finish htag =>
      simp only [readFrom, readToken_plain hnext hu, Lexer.takeComments, htag, beq_self_eq_true,
        if_true, hcs, and_self]
    | take htag hnext' hserves =>
      subst hlx
      obtain ⟨htokens, hfailure⟩ := ih ⟨_, _, hnext', hserves⟩ hj (Nat.le_of_succ_le_succ hfuel)
      rw [readFrom_cons fuel (readToken_plain hnext hu) hcs rfl htag]
      exact ⟨congrArg _ htokens, hfailure⟩
    | again hslash hrescan hserves =>
      subst hlx
      have htag := Lexer.rescan_tag hrescan
      obtain ⟨_, hcons, hyields⟩ := hserves.pattern htag
      obtain ⟨rfl, rfl⟩ := List.cons.inj hcons
      obtain ⟨htokens, hfailure⟩ := ih hyields hj (Nat.le_of_succ_le_succ hfuel)
      have hread := readToken_again hnext hslash hrescan hu
      have hclear := Lexer.rescan_clear hrescan rfl
      rw [readFrom_cons fuel hread hcs hclear (by simp [htag])]
      exact ⟨congrArg _ htokens, hfailure⟩

/-- A scan of a text comes to the tokens that its lexer yields, where no slash is judged wrong. -/
theorem scan_yields {text : String} (h : (Lexer.start text d 1 true).Yields ts)
    (hj : Along (Judges d) {} (ts.map Prod.fst)) :
    (CommentRemoval.scan text d).tokens = ts ∧ (CommentRemoval.scan text d).failure = none := by
  have hfuel : CommentRemoval.scan text d = readFrom (reader d)
      ((Lexer.start text d 1 true).rest.length + 1 + ts.length) {} (Lexer.start text d 1 true) :=
    (readFrom_complete (by omega) (by omega)).2
  rw [hfuel]
  exact readFrom_yields h hj (Nat.le_add_left _ _)

end TokenStream
end ScriptPress
