import Mathlib.Data.List.Nodup
import ScriptPress.Token.Lexer

/-! # Tokens of later dialects

A word that is a keyword stays one in every later dialect, with the same meaning, and what a
dialect allows the later ones allow too. So a token of a dialect is a token of the later ones,
unless it is a name that has become a keyword.
-/
namespace ScriptPress

variable {v w : Dialect} {word : String}

namespace Dialect

theorem atLeast_trans {a b c : Dialect} (hab : a.atLeast b = true) (hbc : b.atLeast c = true) :
    a.atLeast c = true := by
  simp only [atLeast, Bool.or_eq_true, Bool.and_eq_true, beq_iff_eq, bne_iff_ne,
    decide_eq_true_eq] at hab hbc ⊢
  rcases hab with ha | ⟨hb, hab⟩
  · exact Or.inl ha
  · rcases hbc with hb' | ⟨hc, hbc⟩
    · exact absurd hb' hb
    · exact Or.inr ⟨hc, Nat.le_trans hbc hab⟩

end Dialect

/-! ## Keywords -/

theorem keyword_words : (Keyword.table.map Keyword.word).Nodup := by
  decide

theorem keyword_unreserved : ∀ k ∈ Keyword.table, k.word ∉ Keyword.reservedWords := by
  decide

theorem find_keyword {k : Keyword} :
    Keyword.table.find? (fun k => k.word == word && v.atLeast k.since) = some k
      ↔ k ∈ Keyword.table ∧ k.word = word ∧ v.atLeast k.since = true := by
  constructor
  · intro h
    have hk : (k.word == word && v.atLeast k.since) = true := by simpa using List.find?_some h
    rw [Bool.and_eq_true, beq_iff_eq] at hk
    exact ⟨List.mem_of_find?_eq_some h, hk⟩
  · rintro ⟨hk, hword, hsince⟩
    cases hfind : Keyword.table.find? fun k => k.word == word && v.atLeast k.since with
    | none =>
      have hnot := List.find?_eq_none.mp hfind k hk
      simp [hword, hsince] at hnot
    | some k' =>
      have hk' : k'.word = word := by
        have hfits : (k'.word == word && v.atLeast k'.since) = true := by
          simpa using List.find?_some hfind
        simp_all
      exact congrArg some (List.inj_on_of_nodup_map keyword_words
        (List.mem_of_find?_eq_some hfind) hk (hk'.trans hword.symm))

/-- A keyword is one in every later dialect. -/
theorem keyword_later {tags : Tag × Option Tag} (hw : w.atLeast v = true)
    (h : keyword? word v = some tags) : keyword? word w = some tags := by
  unfold keyword? at h ⊢
  split at h
  · next k hfind =>
    obtain ⟨hk, hword, hsince⟩ := find_keyword.mp hfind
    rw [find_keyword.mpr ⟨hk, hword, Dialect.atLeast_trans hw hsince⟩]
    exact h
  · split at h
    · next hreserved =>
      have hnone :
          Keyword.table.find? (fun k => k.word == word && w.atLeast k.since) = none := by
        rw [List.find?_eq_none]
        intro k hk hfits
        have hword : k.word = word := by simp_all
        apply keyword_unreserved k hk
        rw [hword]
        simpa using hreserved
      rw [hnone, if_pos hreserved]
      exact h
    · cases h

theorem keyword_earlier (hw : w.atLeast v = true) (h : keyword? word w = none) :
    keyword? word v = none := by
  cases hv : keyword? word v with
  | none => rfl
  | some tags =>
    rw [keyword_later hw hv] at h
    cases h

/-- The same dialect will make a keyword of a word that is none in either. -/
theorem laterKeyword_later (hw : w.atLeast v = true) (h : keyword? word w = none) :
    laterKeyword? word w = laterKeyword? word v := by
  rw [laterKeyword?, laterKeyword?, h, keyword_earlier hw h]

/-! ## Lexemes -/

namespace Lexer

theorem wordLexeme_later {text : List Char} {l : Lexeme} (hw : w.atLeast v = true)
    (h : wordLexeme v text = .ok l)
    (hkeeps : l.tag = .identifier → ∀ name, l.text = some name → keyword? name w = none) :
    wordLexeme w text = .ok l := by
  cases hread : Literal.word text with
  | none =>
    rw [wordLexeme, hread] at h
    cases h
  | some read =>
    rw [wordLexeme, hread] at h ⊢
    dsimp only at h ⊢
    cases hv : keyword? (String.ofList read.name) v with
    | none =>
      rw [hv] at h
      cases h
      rw [hkeeps rfl _ rfl]
    | some tags =>
      rw [hv] at h
      rw [keyword_later hw hv]
      exact h

theorem signLexeme_later {c : Char} {text : List Char} {l : Lexeme} (hw : w.atLeast v = true)
    (h : signLexeme v c text = .ok l) : signLexeme w c text = .ok l := by
  cases hread : Punctuator.longest? text with
  | none =>
    rw [signLexeme, hread] at h
    cases h
  | some p =>
    rw [signLexeme, hread] at h ⊢
    dsimp only at h ⊢
    cases hstrict : isStrict p with
    | false =>
      rw [hstrict] at h
      exact h
    | true =>
      cases hv : v.hasStrictEquality with
      | false =>
        rw [hstrict, hv] at h
        cases h
      | true =>
        have hhas : w.hasStrictEquality = true := Dialect.atLeast_trans hw hv
        rw [hstrict, hv] at h
        rw [hhas]
        exact h

theorem lexeme_later {c : Char} {text : List Char} {l : Lexeme} (hw : w.atLeast v = true)
    (h : lexeme v c text = .ok l)
    (hkeeps : l.tag = .identifier → ∀ name, l.text = some name → keyword? name w = none) :
    lexeme w c text = .ok l := by
  unfold lexeme at h ⊢
  split
  · next hdigit =>
    rw [if_pos hdigit] at h
    exact h
  · next hdigit =>
    rw [if_neg hdigit] at h
    split
    · next hword =>
      rw [if_pos hword] at h
      exact wordLexeme_later hw h hkeeps
    · next hword =>
      rw [if_neg hword] at h
      split
      · next hquote =>
        rw [if_pos hquote] at h
        exact h
      · next hquote =>
        rw [if_neg hquote] at h
        exact signLexeme_later hw h

/-! ## Lexers -/

/-- A lexer that goes on in another dialect. -/
def raised (w : Dialect) (lx : Lexer) : Lexer := { lx with dialect := w }

variable {lx lx' : Lexer} {t : Token}

/-- A token stays the token that it is: no word that the dialect has a meaning for is a name. -/
theorem next_later (hw : w.atLeast lx.dialect = true) (h : lx.next = (.ok t, lx'))
    (hkeeps : t.tag = .identifier → keyword? t.shown w = none) :
    (lx.raised w).next = (.ok t, lx'.raised w) := by
  have hpass : ∀ gap, (lx.raised w).pass gap = (lx.pass gap).raised w := fun _ => rfl
  have hscan : Gap.scan (lx.raised w).fresh (lx.raised w).rest = Gap.scan lx.fresh lx.rest := rfl
  simp only [next, hscan, hpass] at h ⊢
  generalize Gap.scan lx.fresh lx.rest = gap at h ⊢
  cases hunfinished : gap.unfinished with
  | some comment =>
    rw [hunfinished] at h
    cases h
  | none =>
    rw [hunfinished] at h
    generalize hhere : lx.pass gap = here at h ⊢
    have hdialect : here.dialect = lx.dialect := hhere ▸ rfl
    obtain ⟨dialect, rest, position, line, fresh, keepComments, comments⟩ := here
    obtain rfl : dialect = lx.dialect := hdialect
    cases rest with
    | nil =>
      cases h
      rfl
    | cons c rest =>
      simp only [raised] at h ⊢
      cases hl : lexeme lx.dialect c (c :: rest) with
      | error fault =>
        rw [hl] at h
        cases h
      | ok l =>
        rw [hl] at h
        cases h
        have hl' : lexeme w c (c :: rest) = .ok l := by
          apply lexeme_later hw hl
          intro htag name hname
          have hshown := hkeeps htag
          rwa [Token.shown, hname] at hshown
        rw [hl']
        rfl

theorem rescan_later {slash : Token} (hw : w.atLeast lx.dialect = true)
    (h : lx.rescan slash = (.ok t, lx')) :
    (lx.raised w).rescan slash = (.ok t, lx'.raised w) := by
  have hhas : lx.dialect.hasRegExpLiterals = true → w.hasRegExpLiterals = true :=
    Dialect.atLeast_trans hw
  have hdialect : (lx.raised w).dialect = w := rfl
  have hrest : (lx.raised w).rest = lx.rest := rfl
  simp only [rescan, hdialect, hrest] at h ⊢
  cases hv : lx.dialect.hasRegExpLiterals with
  | false =>
    rw [hv] at h
    cases h
  | true =>
    rw [hv] at h
    rw [hhas hv]
    simp only [Bool.not_true, Bool.false_eq_true, if_false] at h ⊢
    cases hscan : Literal.regExp (if slash.tag == .assign then '=' :: lx.rest else lx.rest) with
    | problem p taken =>
      rw [hscan] at h
      cases h
    | token taken rest =>
      rw [hscan] at h
      cases h
      rfl

theorem rescan_dialect {slash : Token} (h : lx.rescan slash = (.ok t, lx')) :
    lx'.dialect = lx.dialect := by
  unfold rescan at h
  split at h
  · cases h
  · dsimp only at h
    split at h
    · cases h
    · cases h
      rfl

end Lexer
end ScriptPress
