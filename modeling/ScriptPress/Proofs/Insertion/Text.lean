import ScriptPress.Proofs.Lexical.Moving
import ScriptPress.Proofs.Lexical.Tiling
import ScriptPress.Proofs.Lexical.Writing

/-! # Semicolons in a text

A text with semicolons put behind some of its tokens. A token that no semicolon was put into is
read as before, together with the gap in front of it.
-/
namespace ScriptPress

namespace Gap

/-- A gap before another text. -/
def before (gap : Gap) (rest : List Char) : Gap := { gap with rest }

theorem consBlank_before (c : Char) (gap : Gap) (rest : List Char) :
    consBlank c (gap.before rest) = (consBlank c gap).before rest := by
  unfold consBlank before
  dsimp only
  split <;> rfl

/-- What opens a line comment opens it up to the end of its line. -/
theorem opensLineComment_line {fresh : Bool} {text : List Char} (more : List Char)
    (h : opensLineComment fresh text = true) :
    opensLineComment fresh (inLineOf text ++ more) = true := by
  simp only [opensLineComment, Bool.or_eq_true, Bool.and_eq_true] at h ⊢
  rcases h with (h | h) | ⟨hfresh, h⟩
  · exact Or.inl (Or.inl (isPrefixOf_inLineOf (Literal.forall_chars (by decide)) h))
  · exact Or.inl (Or.inr (isPrefixOf_inLineOf (Literal.forall_chars (by decide)) h))
  · exact Or.inr ⟨hfresh, isPrefixOf_inLineOf (Literal.forall_chars (by decide)) h⟩

/-- A gap is passed again before a text that goes on with no gap where the old one did not. -/
theorem scanFrom_moves {fresh : Bool} {text : List Char}
    (hu : (scanFrom (.between fresh) text).unfinished = none)
    (hne : (scanFrom (.between fresh) text).rest ≠ []) :
    ∃ front, text = front ++ (scanFrom (.between fresh) text).rest
      ∧ ∀ rest, (∀ f, Stops f (scanFrom (.between fresh) text).rest → Stops f rest) →
        scanFrom (.between fresh) (front ++ rest)
          = (scanFrom (.between fresh) text).before rest := by
  induction hn : text.length using Nat.strong_induction_on generalizing fresh text with
  | _ n ih =>
    subst hn
    cases text with
    | nil => exact absurd rfl hne
    | cons c text =>
      by_cases hc : Lexer.isSpace c = true
      · rw [scanFrom_space hc] at hu hne ⊢
        rw [consBlank_unfinished] at hu
        rw [consBlank_rest] at hne ⊢
        obtain ⟨front, hfront, hall⟩ := ih _ (by simp) hu hne rfl
        refine ⟨c :: front, congrArg (c :: ·) hfront, fun rest hmoves => ?_⟩
        rw [List.cons_append, scanFrom_space hc, hall rest hmoves, consBlank_before]
      simp only [Bool.not_eq_true] at hc
      have hbreak : Text.isLineBreak c = false := (Bool.or_eq_false_iff.mp hc).2
      have hself : inLineOf (c :: text) = c :: inLineOf text := by simp [inLineOf, hbreak]
      have hgo : ∀ more, scanFrom (.between fresh) (c :: more)
          = if opensLineComment fresh (c :: more) then scanFrom (.inLine [c]) more
            else if opensBlockComment (c :: more) then scanFrom (.inBlock fresh [c]) more
            else ⟨[], none, c :: more⟩ := by
        intro more
        rw [scanFrom, ← Lexer.isSpace, if_neg (by simp [hc])]
      by_cases hline : opensLineComment fresh (c :: text) = true
      · -- the comment ends with its line, so that the break behind it stays
        rw [hgo, if_pos hline, scanFrom_inLine] at hu hne ⊢
        cases hdrop : text.dropWhile (!Text.isLineBreak ·) with
        | nil => simp [hdrop, cons] at hne
        | cons b after =>
          simp only [hdrop, cons] at hu hne ⊢
          rw [consBlank_unfinished] at hu
          rw [consBlank_rest] at hne ⊢
          have hlen := (@List.dropWhile_suffix _ text (!Text.isLineBreak ·)).length_le
          have hends := Literal.ends_dropWhile (!Text.isLineBreak ·) text
          rw [hdrop, List.length_cons] at hlen
          rw [hdrop, Literal.ends_cons, Bool.not_eq_false'] at hends
          obtain ⟨front, hfront, hall⟩ := ih _ (by simp; omega) hu hne rfl
          have htext : text = inLineOf text ++ b :: after := by
            rw [← hdrop, inLineOf, List.takeWhile_append_dropWhile]
          have hno : ∀ d ∈ inLineOf text, (!Text.isLineBreak d) = true := fun d hd =>
            Literal.all_takeWhile _ _ d hd
          refine ⟨c :: inLineOf text ++ b :: front, ?_, fun rest hmoves => ?_⟩
          · rw [List.append_assoc, List.cons_append, List.cons_append, ← hfront, ← htext]
          · have hopens := opensLineComment_line (b :: front ++ rest) hline
            have hstop : Literal.Ends (!Text.isLineBreak ·) (b :: front ++ rest) :=
              Literal.ends_cons.mpr (by simp [hends])
            have htake : inLineOf (inLineOf text ++ (b :: front ++ rest)) = inLineOf text := by
              rw [inLineOf, Literal.takeWhile_append_of_ends hstop, Literal.takeWhile_eq_self hno]
            have hleft : (inLineOf text ++ (b :: front ++ rest)).dropWhile (!Text.isLineBreak ·)
                = b :: (front ++ rest) := by
              rw [Literal.dropWhile_append_of_ends hstop, Literal.dropWhile_eq_nil hno]
              rfl
            rw [hself] at hopens
            rw [List.append_assoc, List.cons_append, hgo, ← List.cons_append, if_pos hopens,
              scanFrom_inLine, htake, hleft]
            dsimp only
            rw [hall rest hmoves, consBlank_before]
            rfl
      by_cases hblock : opensBlockComment (c :: text) = true
      · rw [hgo, if_neg hline, if_pos hblock] at hu hne ⊢
        obtain ⟨body, after, rfl, hlast, hbody⟩ := scanFrom_inBlock hu
        rw [hbody] at hu hne ⊢
        obtain ⟨body, rfl, rfl⟩ : ∃ more, c = '/' ∧ body = '*' :: more := by
          cases body with
          | nil => cases hlast
          | cons d more =>
            have hmark : '/' = c ∧ '*' = d := by simpa [opensBlockComment] using hblock
            exact ⟨more, hmark.1.symm, by rw [hmark.2]⟩
        have hlen : after.length < ('/' :: ('*' :: body ++ after)).length := by
          simp only [List.length_cons, List.length_append]
          omega
        obtain ⟨front, hfront, hall⟩ := ih _ hlen hu hne rfl
        refine ⟨'/' :: '*' :: body ++ front, ?_, fun rest hmoves => ?_⟩
        · rw [List.append_assoc]
          exact congrArg ('/' :: '*' :: body ++ ·) hfront
        · have hopens : opensBlockComment ('/' :: ('*' :: body ++ (front ++ rest))) = true := by
            simp [opensBlockComment]
          have hno : ¬ opensLineComment fresh ('/' :: ('*' :: body ++ (front ++ rest))) = true := by
            simp [opensLineComment]
          rw [List.append_assoc, List.cons_append, hgo, if_neg hno, if_pos hopens, hbody,
            hall rest hmoves]
          rfl
      · rw [hgo, if_neg hline, if_neg hblock] at hu hne ⊢
        refine ⟨[], rfl, fun rest hmoves => ?_⟩
        rw [List.nil_append, (hmoves fresh ⟨fun d hd => ?_, by simpa using hline,
          by simpa using hblock⟩).scanFrom]
        · rfl
        · obtain rfl : c = d := by simpa using hd
          exact hc

end Gap

/-! ## Places -/

/-- A semicolon, at a place that gets one. -/
def mark (places : List Nat) (p : Nat) : List Char := if p ∈ places then [';'] else []

/-- A text that begins at a position, with semicolons at places behind its characters. -/
def marked (places : List Nat) : Nat → List Char → List Char
  | _, [] => []
  | p, c :: text => c :: (mark places (p + c.utf8Size) ++ marked places (p + c.utf8Size) text)

/-- A text behind a token that ends at a position, with the semicolon that the token gets. -/
def markedFrom (places : List Nat) (p : Nat) (text : List Char) : List Char :=
  mark places p ++ marked places p text

/-- A text with semicolons put into it, each behind the character that ends at its place. -/
def withSemicolons (places : List Nat) (text : String) : String :=
  String.ofList (marked places 0 text.toList)

example : withSemicolons [1, 3] "a\nb" = "a;\nb;" := by decide

section
variable {places : List Nat} {p : Nat} {text front rest : List Char}

theorem marked_cons (c : Char) :
    marked places p (c :: text) = c :: markedFrom places (p + c.utf8Size) text := rfl

theorem mark_none (h : p ∉ places) : mark places p = [] := if_neg h

theorem markedFrom_none (h : p ∉ places) : markedFrom places p text = marked places p text := by
  rw [markedFrom, mark_none h, List.nil_append]

theorem markedFrom_some (h : p ∈ places) :
    markedFrom places p text = ';' :: marked places p text := by
  rw [markedFrom, mark, if_pos h, List.singleton_append]

/-- A text whose places are all behind it is left as it is. -/
theorem marked_self (h : ∀ q ∈ places, q ≤ p) : marked places p text = text := by
  induction text generalizing p with
  | nil => rfl
  | cons c text ih =>
    have hsize := Char.utf8Size_pos c
    have hnone : p + c.utf8Size ∉ places := fun hin => by
      have := h _ hin
      omega
    rw [marked_cons, markedFrom_none hnone, ih fun q hq => (h q hq).trans (Nat.le_add_right _ _)]

/-- No semicolon is put into a part of a text that no place is in. -/
theorem marked_append (hne : front ≠ [])
    (h : ∀ q ∈ places, q ≤ p ∨ p + Text.byteLength front ≤ q) :
    marked places p (front ++ rest)
      = front ++ markedFrom places (p + Text.byteLength front) rest := by
  induction front generalizing p with
  | nil => exact absurd rfl hne
  | cons c front ih =>
    have hlength : p + Text.byteLength (c :: front)
        = p + c.utf8Size + Text.byteLength front := (Nat.add_assoc _ _ _).symm
    rw [hlength] at h ⊢
    rw [List.cons_append, marked_cons, List.cons_append]
    by_cases hfront : front = []
    · subst hfront
      rfl
    have hpos := Part.byteLength_pos hfront
    have hsize := Char.utf8Size_pos c
    have hnone : p + c.utf8Size ∉ places := fun hin => by
      have := h _ hin
      omega
    rw [markedFrom_none hnone, ih hfront fun q hq => (h q hq).imp_left fun hle => by omega]

/-- The characters of a text that begins behind a token, when no place is in its front. -/
theorem markedFrom_append (h : ∀ q ∈ places, q < p ∨ p + Text.byteLength front ≤ q) :
    markedFrom places p (front ++ rest)
      = front ++ markedFrom places (p + Text.byteLength front) rest := by
  by_cases hne : front = []
  · subst hne
    rfl
  have hpos := Part.byteLength_pos hne
  have hnone : p ∉ places := fun hin => by
    have := h _ hin
    omega
  rw [markedFrom_none hnone, marked_append hne fun q hq => (h q hq).imp_left Nat.le_of_lt]

theorem isBar_semicolon (rest : List Char) : ∀ c ∈ (';' :: rest).head?, Lexer.isBar c = true := by
  simp [Lexer.isBar]

theorem follows_markedFrom : Lexer.Follows text (markedFrom places p text) := by
  induction text generalizing p with
  | nil =>
    by_cases hp : p ∈ places
    · rw [markedFrom_some hp]
      exact ⟨[], [], [';'], rfl, rfl, isBar_semicolon []⟩
    · rw [markedFrom_none hp]
      exact .refl []
  | cons c text ih =>
    by_cases hp : p ∈ places
    · rw [markedFrom_some hp]
      exact ⟨[], c :: text, _, rfl, rfl, isBar_semicolon _⟩
    · rw [markedFrom_none hp]
      exact ih.append [c]

theorem length_marked : text.length ≤ (marked places p text).length := by
  induction text generalizing p with
  | nil => exact Nat.le_refl _
  | cons c text ih =>
    have := @ih (p + c.utf8Size)
    simp only [marked_cons, markedFrom, List.length_cons, List.length_append]
    omega

end

/-! ## Tokens of a text with semicolons -/

/-- A token at another place of a text. -/
def Token.placed (t : Token) (start stop : Nat) : Token := { t with start, stop }

namespace Lexer
variable {lx lx₁ : Lexer} {t t' : Token} {places : List Nat}

/-- A lexer before another text. -/
def before (lx : Lexer) (rest : List Char) (position : Nat) : Lexer := { lx with rest, position }

theorem heard_before (gap : Gap) (rest rest' : List Char) (p : Nat) :
    ((lx.before rest p).pass (gap.before rest')).heard = (lx.pass gap).heard := by
  rw [heard_pass, heard_pass]
  rfl

theorem next_end {gap : Gap} (hscan : Gap.scanFrom (.between lx.fresh) lx.rest = gap)
    (hu : gap.unfinished = none) (hrest : gap.rest = []) :
    lx.next = (.ok { tag := .endOfInput, line := (lx.pass gap).line,
                     start := (lx.pass gap).position, stop := (lx.pass gap).position,
                     newlineBefore := gap.hasNewline }, lx.pass gap) := by
  have hscan : Gap.scan lx.fresh lx.rest = gap := hscan
  have hpass : (lx.pass gap).rest = [] := hrest
  simp only [next, hscan, hu, hpass]

theorem next_lexeme {gap : Gap} {c : Char} {l : Lexeme}
    (hscan : Gap.scanFrom (.between lx.fresh) lx.rest = gap) (hu : gap.unfinished = none)
    (hc : gap.rest.head? = some c) (hl : lexeme lx.dialect c gap.rest = .ok l) :
    lx.next = (.ok { tag := l.tag, datum := l.datum, text := l.text, line := (lx.pass gap).line,
                     start := (lx.pass gap).position,
                     stop := (lx.pass gap).position + Text.byteLength l.taken,
                     newlineBefore := gap.hasNewline },
      { lx.pass gap with fresh := false }.advance l.taken l.rest) := by
  have hscan : Gap.scan lx.fresh lx.rest = gap := hscan
  obtain ⟨more, hmore⟩ : ∃ more, gap.rest = c :: more := List.head?_eq_some_iff.mp hc
  have hpass : (lx.pass gap).rest = c :: more := hmore
  have hdialect : (lx.pass gap).dialect = lx.dialect := rfl
  rw [hmore] at hl
  simp only [next, hscan, hu, hpass, hdialect, hl]
  rfl

theorem position_pass {front : List Char}
    (hu : (Gap.scanFrom (.between lx.fresh) lx.rest).unfinished = none)
    (hfront : lx.rest = front ++ (Gap.scanFrom (.between lx.fresh) lx.rest).rest) :
    (lx.pass (Gap.scanFrom (.between lx.fresh) lx.rest)).position
      = lx.position + Text.byteLength front := by
  have hwhole := (Gap.scanFrom_tiles lx.dialect hu).whole
  have htexts := List.append_cancel_right (hwhole.trans hfront)
  rw [← htexts, Part.texts, Gap.parts, List.flatMap_map]
  rfl

/-- The lexer reads a token that no semicolon was put into, and the gap in front of it, as
before. -/
theorem next_marked (h : lx.next = (.ok t, lx₁))
    (hclear : ∀ q ∈ places, q ≤ lx.position ∨ t.tag ≠ .endOfInput ∧ t.stop ≤ q) (p : Nat) :
    ∃ start stop rest position comments,
      (lx.before (marked places lx.position lx.rest) p).next
        = (.ok (t.placed start stop), { lx₁ with rest, position, comments })
      ∧ (t.tag ≠ .endOfInput → rest = markedFrom places lx₁.position lx₁.rest)
      ∧ comments.map Comment.text = lx₁.comments.map Comment.text := by
  obtain ⟨gap, hscan, hu, hstart, ⟨hrest, htag, hstop, -⟩ | ⟨c, l, hc, hl, hof, hstop, -⟩⟩ :=
    next_inv h
  · have hself : marked places lx.position lx.rest = lx.rest :=
      marked_self fun q hq => (hclear q hq).resolve_right fun hlater => hlater.1 htag
    have hnext : (lx.before lx.rest p).next = _ := next_end hscan hu hrest
    rw [next_end hscan hu hrest] at h
    obtain ⟨rfl, rfl⟩ : _ = t ∧ lx.pass gap = lx₁ := by simpa using h
    rw [hself, hnext]
    exact ⟨_, _, _, _, _, rfl, fun hne => absurd rfl hne, heard_before gap lx.rest gap.rest p⟩
  · obtain ⟨hsplit, hne, -⟩ := lexeme_ok hc (hof ▸ hl)
    have hgap : gap.rest ≠ [] := by
      rintro hnil
      rw [hnil] at hc
      cases hc
    obtain ⟨front, hfront, hmoves⟩ := Gap.scanFrom_moves (hscan ▸ hu) (hscan ▸ hgap)
    have hplace := position_pass (hscan ▸ hu) hfront
    rw [hscan] at hfront hmoves hplace
    have hbytes : lx.position + Text.byteLength (front ++ l.taken) = t.stop := by
      rw [hstop, hstart, hplace, Part.byteLength_append, Nat.add_assoc]
    have hclear' : ∀ q ∈ places, q ≤ lx.position
        ∨ lx.position + Text.byteLength (front ++ l.taken) ≤ q := fun q hq =>
      hbytes ▸ (hclear q hq).imp_right And.right
    have hmarked : marked places lx.position lx.rest
        = front ++ (l.taken ++ markedFrom places t.stop l.rest) := by
      rw [hfront, hsplit, ← List.append_assoc, marked_append (by simp [hne]) hclear', hbytes,
        List.append_assoc]
    have hfollows : Follows l.rest (markedFrom places t.stop l.rest) := follows_markedFrom
    have hscan' : Gap.scanFrom (.between (lx.before (marked places lx.position lx.rest) p).fresh)
        (lx.before (marked places lx.position lx.rest) p).rest
        = gap.before (l.taken ++ markedFrom places t.stop l.rest) := by
      change Gap.scanFrom (.between lx.fresh) (marked places lx.position lx.rest) = _
      rw [hmarked]
      exact hmoves _ fun f hstops => Gap.Stops.moves hne (hsplit ▸ hstops) hfollows Or.inl
    have hl' := lexeme_moves (hsplit ▸ hc) (hsplit ▸ hof ▸ hl) hfollows
    have hhead : l.taken.head? = some c := by
      cases htaken : l.taken with
      | nil => exact absurd htaken hne
      | cons b taken => simpa [hsplit, htaken] using hc
    rw [next_lexeme hscan hu hc hl] at h
    obtain ⟨rfl, rfl⟩ : _ = t ∧ _ = lx₁ := by simpa using h
    rw [next_lexeme hscan' hu (head_append hhead) hl']
    exact ⟨_, _, _, _, _, rfl, fun _ => rfl, heard_before gap lx.rest _ p⟩

/-- The lexer reads a semicolon that was put in right behind a token. -/
theorem next_semicolon {rest : List Char} (hrest : lx.rest = ';' :: rest)
    (hfresh : lx.fresh = false) : ∃ t p, lx.next = (.ok t, lx.before rest p)
      ∧ t.tag = .semicolon := by
  have hp : ⟨[';'], .semicolon, none⟩ ∈ Punctuator.table := by decide
  have hlexeme : IsLexeme lx.dialect [';'] ⟨.semicolon, none, none⟩ := isLexeme_sign hp rfl
  have hglues : ∀ c ∈ rest.head?, glues [';'] c = false := fun c _ => Writer.semicolon_glues c
  have hscan := hlexeme.scanFrom hglues lx.fresh
  obtain ⟨c, hc, hl⟩ := hlexeme.append hglues
  rw [List.singleton_append, ← hrest] at hscan hl
  have hhead : lx.rest.head? = some c := by rwa [hrest]
  have hthere : { lx.pass ⟨[], none, lx.rest⟩ with fresh := false }.advance [';'] rest
      = lx.before rest (lx.position + 1) := by
    have hsame : Text.lineBreaks [';'] = 0 := by decide
    simp only [pass, advance, before, List.flatMap_nil, Gap.commentsFrom, List.append_nil, ite_self,
      hsame, hfresh]
    rfl
  refine ⟨_, _, (next_lexeme hscan rfl hhead hl).trans (congrArg _ hthere), rfl⟩

/-- A token other than the end of the input takes characters behind the gap before it. -/
structure Spans (lx : Lexer) (t : Token) (lx₁ : Lexer) : Prop where
  gap : lx.position ≤ t.start
  position : lx₁.position = t.stop
  stop : t.start ≤ t.stop
  token : t.tag ≠ .endOfInput → t.start < t.stop ∧ lx₁.fresh = false
  slash : t.isSlash = true → t.stop = t.start + (if t.tag = .assign then 2 else 1)

theorem next_spans (h : lx.next = (.ok t, lx₁)) : Spans lx t lx₁ := by
  obtain ⟨gap, hscan, hu, hstart, ⟨hrest, htag, hstop, rfl⟩ | ⟨c, l, hc, hl, hof, hstop, rfl⟩⟩ :=
    next_inv h
  · refine ⟨hstart ▸ Nat.le_add_right _ _, (hstop.trans hstart).symm, hstop.ge,
      fun hne => absurd htag hne, ?_⟩
    simp [Token.isSlash, htag]
  · obtain ⟨-, hne, -⟩ := lexeme_ok hc (hof ▸ hl)
    have hpos := Part.byteLength_pos hne
    refine ⟨hstart ▸ Nat.le_add_right _ _, ?_, by omega, fun _ => ⟨by omega, rfl⟩,
      fun hslash => ?_⟩
    · rw [hstop, hstart]
      rfl
    · rw [hstop]
      have hkind : Kind lx.dialect l.taken t.sym := lexeme_kind hc (hof ▸ hl)
      rcases hkind.tags.2.2 hslash with ⟨htag, htaken⟩ | ⟨htag, htaken⟩
      · have htag : t.tag = .div := htag
        rw [htaken, htag]
        rfl
      · have htag : t.tag = .assign := htag
        rw [htaken, htag]
        rfl

/-- What a slash that was read again became. -/
theorem rescan_ok (h : lx.rescan t = (.ok t', lx₁)) :
    ∃ taken rest, Literal.regExp (t.reopen lx.rest) = .token taken rest
      ∧ lx.dialect.hasRegExpLiterals = true
      ∧ lx₁ = { lx with rest := t.reopen lx.rest, position := t.start + 1 }.advance taken rest
      ∧ t' = { t with
        tag := .regExp, datum := none, text := some (String.ofList ('/' :: taken))
        stop := lx₁.position } := by
  have hreopen : (if t.tag == .assign then '=' :: lx.rest else lx.rest) = t.reopen lx.rest := rfl
  by_cases hd : lx.dialect.hasRegExpLiterals = true
  · cases hscan : Literal.regExp (t.reopen lx.rest) with
    | problem problem taken =>
      simp only [rescan, hd, hreopen, hscan] at h
      cases h
    | token taken rest =>
      simp only [rescan, hd, hreopen, hscan, Bool.not_true, Bool.false_eq_true, if_false,
        Prod.mk.injEq, Except.ok.injEq] at h
      obtain ⟨rfl, rfl⟩ := h
      exact ⟨taken, rest, rfl, hd, rfl, rfl⟩
  · simp [rescan, hd] at h

/-- Where a pattern stands that a slash was read again as. -/
structure Respans (lx : Lexer) (t t' : Token) (lx₁ : Lexer) : Prop where
  start : t'.start = t.start
  position : lx₁.position = t'.stop
  stop : lx.position ≤ t'.stop ∧ t.start < t'.stop
  tag : t'.tag = .regExp
  fresh : lx₁.fresh = lx.fresh
  comments : lx₁.comments = lx.comments
  dialect : lx₁.dialect = lx.dialect

theorem rescan_spans (h : lx.rescan t = (.ok t', lx₁))
    (hplace : lx.position = t.start + (if t.tag = .assign then 2 else 1)) :
    Respans lx t t' lx₁ := by
  obtain ⟨taken, rest, hscan, -, hlx, ht⟩ := rescan_ok h
  have hpos := Part.byteLength_pos (Literal.regExp_ne_nil hscan)
  have hstop : t'.stop = t.start + 1 + Text.byteLength taken := by
    rw [ht, hlx]
    rfl
  have hle : lx.position ≤ t'.stop := by
    rw [hplace, hstop]
    split <;> omega
  exact ⟨by rw [ht], by rw [ht], ⟨hle, by omega⟩, by rw [ht], by rw [hlx]; rfl, by rw [hlx]; rfl,
    by rw [hlx]; rfl⟩

/-- The text behind a slash goes on with the same pattern when no semicolon was put into it. -/
theorem reopen_marked {taken rest : List Char}
    (hscan : Literal.regExp (t.reopen lx.rest) = .token taken rest)
    (hplace : lx.position = t.start + (if t.tag = .assign then 2 else 1))
    (hclear : ∀ q ∈ places, q < lx.position ∨ t.start + 1 + Text.byteLength taken ≤ q) :
    t.reopen (markedFrom places lx.position lx.rest)
      = taken ++ markedFrom places (t.start + 1 + Text.byteLength taken) rest := by
  have hsplit := (Literal.regExp_token hscan).1
  by_cases htag : t.tag = .assign
  · have hreopen : ∀ text, t.reopen text = '=' :: text := fun text => by simp [Token.reopen, htag]
    rw [hreopen] at hsplit ⊢
    obtain ⟨c, taken, rfl⟩ := List.exists_cons_of_ne_nil (Literal.regExp_ne_nil hscan)
    rw [List.cons_append] at hsplit
    obtain ⟨rfl, hrest⟩ := List.cons.inj hsplit
    have hbytes : t.start + 1 + Text.byteLength ('=' :: taken)
        = lx.position + Text.byteLength taken := by
      rw [hplace, if_pos htag]
      change t.start + 1 + (1 + Text.byteLength taken) = _
      omega
    rw [hbytes] at hclear ⊢
    rw [hrest, markedFrom_append hclear, List.cons_append]
  · have hreopen : ∀ text, t.reopen text = text := fun text => by simp [Token.reopen, htag]
    rw [hreopen] at hsplit ⊢
    have hbytes : t.start + 1 = lx.position := by rw [hplace, if_neg htag]
    rw [hbytes] at hclear ⊢
    rw [hsplit, markedFrom_append hclear]

/-- A slash is read again as the same pattern when no semicolon was put into it. -/
theorem rescan_marked (h : lx.rescan t = (.ok t', lx₁))
    (hplace : lx.position = t.start + (if t.tag = .assign then 2 else 1))
    (hclear : ∀ q ∈ places, q < lx.position ∨ t'.stop ≤ q) (p start stop : Nat) :
    ∃ start' stop' position,
      (lx.before (markedFrom places lx.position lx.rest) p).rescan (t.placed start stop)
        = (.ok (t'.placed start' stop'),
          lx₁.before (markedFrom places lx₁.position lx₁.rest) position) := by
  obtain ⟨taken, rest, hscan, hd, rfl, rfl⟩ := rescan_ok h
  have hmoved := reopen_marked hscan hplace hclear
  have hagain := regExp_moves ((Literal.regExp_token hscan).1 ▸ hscan)
    (@follows_markedFrom places (t.start + 1 + Text.byteLength taken) rest)
  have hnew : (if (t.placed start stop).tag == .assign
      then '=' :: (lx.before (markedFrom places lx.position lx.rest) p).rest
      else (lx.before (markedFrom places lx.position lx.rest) p).rest)
      = taken ++ markedFrom places (t.start + 1 + Text.byteLength taken) rest := hmoved
  have hd' : (lx.before (markedFrom places lx.position lx.rest) p).dialect.hasRegExpLiterals
      = true := hd
  simp only [rescan, hd', hnew, hagain, Bool.not_true, Bool.false_eq_true, if_false]
  exact ⟨_, _, _, rfl⟩

end Lexer
end ScriptPress
