import ScriptPress.Proofs.Lexical.Lexeme

/-! # What a text feeds to the grammar

A text feeds the grammar a list of words, each with the comments in front of it, and the comments
behind the last word. Blanks, line breaks and comments in front of a text only add comments and
break the line before its first word. Positions and line numbers play no part.
-/
namespace ScriptPress

/-- What stands in front of a symbol: whether a line may end there, and the comments there. -/
structure Lead where
  breaks : Bool
  remarks : List String := []
  deriving Repr, DecidableEq

/-- A lead without comments. -/
instance : Coe Bool Lead := ⟨fun breaks => ⟨breaks, []⟩⟩

/-- A lead with more comments at its beginning. -/
def Lead.remarked (cs : List String) (lead : Lead) : Lead := ⟨lead.breaks, cs ++ lead.remarks⟩

/-- A symbol and what stands in front of it. -/
structure Word where
  sym : Sym
  lead : Lead
  deriving Repr, DecidableEq

/-- Words with more comments in front of them. -/
def remarked (cs : List String) : List Word → List Word
  | [] => []
  | w :: ws => ⟨w.sym, w.lead.remarked cs⟩ :: ws

/-- The comments behind words when there are more comments in front of the words. -/
def remarkedTail (cs : List String) (ws : List Word) (tail : List String) : List String :=
  if ws.isEmpty then cs ++ tail else tail

@[simp] theorem remarked_nil (ws : List Word) : remarked [] ws = ws := by
  cases ws <;> rfl

@[simp] theorem remarkedTail_nil (ws : List Word) (tail : List String) :
    remarkedTail [] ws tail = tail := by
  rw [remarkedTail, List.nil_append, ite_self]

namespace Gap

/-- The texts of the comments among pieces, if comments are kept. -/
def kept (keep : Bool) (pieces : List Piece) : List String :=
  if keep then pieces.filterMap fun
    | .blanks _ => none
    | .comment _ text => some (String.ofList text)
  else []

def breaks (pieces : List Piece) : Bool := pieces.any (·.text.any Text.isLineBreak)

@[simp] theorem consBlank_rest (c : Char) (gap : Gap) : (consBlank c gap).rest = gap.rest := by
  unfold consBlank
  split <;> rfl

@[simp] theorem consBlank_unfinished (c : Char) (gap : Gap) :
    (consBlank c gap).unfinished = gap.unfinished := by
  unfold consBlank
  split <;> rfl

@[simp] theorem kept_consBlank (keep : Bool) (c : Char) (gap : Gap) :
    kept keep (consBlank c gap).pieces = kept keep gap.pieces := by
  unfold consBlank
  split
  · next h => simp [kept, h]
  · rfl

@[simp] theorem breaks_consBlank (c : Char) (gap : Gap) :
    breaks (consBlank c gap).pieces = (Text.isLineBreak c || breaks gap.pieces) := by
  unfold consBlank
  split
  · next h => simp [breaks, h, Piece.text, Bool.or_assoc]
  · simp [breaks, Piece.text]

theorem scanFrom_length (place : Place) (text : List Char) :
    (scanFrom place text).rest.length ≤ text.length := by
  fun_induction scanFrom place text with
  | case1 | case2 | case3 => exact Nat.le_refl _
  | case7 => exact Nat.le_refl _
  | _ => simp_all [cons]; omega

theorem scanFrom_space {c : Char} {rest : List Char} {fresh : Bool}
    (h : Lexer.isSpace c = true) :
    scanFrom (.between fresh) (c :: rest)
      = consBlank c (scanFrom (.between (fresh || Text.isLineBreak c)) rest) := by
  rw [scanFrom, ← Lexer.isSpace, if_pos h]

/-! ## Comments -/

/-- A text that is a comment of its own at the beginning of a line, up to the end of the line. -/
def IsComment (text : List Char) : Prop :=
  text.getLast? ≠ some '\n' ∧
    ∃ block, ∀ rest, scanFrom (.between true) (text ++ '\n' :: rest)
      = cons (.comment block text) (scanFrom (.between true) ('\n' :: rest))

def inLineOf (text : List Char) : List Char := text.takeWhile (!Text.isLineBreak ·)

/-- A line comment takes all up to the end of its line. -/
theorem scanFrom_inLine (sofar text : List Char) :
    scanFrom (.inLine sofar) text = cons (.comment false (sofar.reverse ++ inLineOf text))
      (match text.dropWhile (!Text.isLineBreak ·) with
        | [] => ⟨[], none, []⟩
        | c :: rest => consBlank c (scanFrom (.between true) rest)) := by
  induction text generalizing sofar with
  | nil => simp [scanFrom, inLineOf, cons]
  | cons c text ih =>
    rw [scanFrom]
    by_cases hc : Text.isLineBreak c = true
    · simp [hc, inLineOf]
    · simp [hc, ih, inLineOf]

/-- A block comment takes all up to its end, wherever its text stands. -/
theorem scanFrom_inBlock {fresh : Bool} {sofar text : List Char}
    (h : (scanFrom (.inBlock fresh sofar) text).unfinished = none) :
    ∃ t rest, text = t ++ rest ∧ t.getLast? = some '/' ∧ ∀ fresh other,
      scanFrom (.inBlock fresh sofar) (t ++ other)
        = cons (.comment true (sofar.reverse ++ t)) (scanFrom (.between fresh) other) := by
  induction text generalizing sofar with
  | nil => simp [scanFrom] at h
  | cons c text ih =>
    by_cases hc : (c == '/' && closesBlock sofar) = true
    · have hslash : c = '/' := (by simpa using hc : c = '/' ∧ _).1
      exact ⟨[c], text, rfl, by rw [hslash]; rfl, fun fresh other => by
        rw [List.singleton_append, scanFrom, if_pos hc, List.reverse_cons]⟩
    · rw [scanFrom, if_neg hc] at h
      obtain ⟨t, rest, rfl, hlast, hall⟩ := ih h
      refine ⟨c :: t, rest, rfl, ?_, fun fresh other => ?_⟩
      · rw [List.getLast?_cons, hlast, Option.getD_some]
      · rw [List.cons_append, scanFrom, if_neg hc, hall]
        simp

theorem inLineOf_append {text : List Char} (rest : List Char)
    (h : ∀ c ∈ text, Text.isLineBreak c = false) :
    (text ++ '\n' :: rest).takeWhile (!Text.isLineBreak ·) = text
      ∧ (text ++ '\n' :: rest).dropWhile (!Text.isLineBreak ·) = '\n' :: rest := by
  have hends : Literal.Ends (!Text.isLineBreak ·) ('\n' :: rest) := Literal.ends_cons.mpr rfl
  have hall : ∀ c ∈ text, (!Text.isLineBreak c) = true := fun c hc => by simp [h c hc]
  exact ⟨by rw [Literal.takeWhile_append_of_ends hends, Literal.takeWhile_eq_self hall],
    by rw [Literal.dropWhile_append_of_ends hends, Literal.dropWhile_eq_nil hall,
      List.nil_append]⟩

theorem isPrefixOf_inLineOf {m text more : List Char}
    (hm : ∀ c ∈ m, Text.isLineBreak c = false) (h : m.isPrefixOf text = true) :
    m.isPrefixOf (inLineOf text ++ more) = true := by
  obtain ⟨rest, rfl⟩ := List.isPrefixOf_iff_prefix.mp h
  have hall : ∀ c ∈ m, (!Text.isLineBreak c) = true := fun c hc => by simp [hm c hc]
  rw [List.isPrefixOf_iff_prefix, inLineOf, List.takeWhile_append_of_pos hall, List.append_assoc]
  exact List.prefix_append m _

/-- A line comment keeps its mark when the rest of its text goes, since no mark holds a line
break. -/
theorem opensLineComment_inLineOf {fresh : Bool} {text : List Char} (more : List Char)
    (h : opensLineComment fresh text = true) :
    opensLineComment true (inLineOf text ++ more) = true := by
  simp only [opensLineComment, Bool.or_eq_true, Bool.and_eq_true] at h ⊢
  rcases h with (h | h) | ⟨-, h⟩
  · exact Or.inl (Or.inl (isPrefixOf_inLineOf (Literal.forall_chars (by decide)) h))
  · exact Or.inl (Or.inr (isPrefixOf_inLineOf (Literal.forall_chars (by decide)) h))
  · exact Or.inr ⟨trivial, isPrefixOf_inLineOf (Literal.forall_chars (by decide)) h⟩

theorem isComment_line {fresh : Bool} {c : Char} {rest : List Char}
    (hc : Lexer.isSpace c = false) (h : opensLineComment fresh (c :: rest) = true) :
    IsComment (c :: inLineOf rest) := by
  have hbreak : Text.isLineBreak c = false := (Bool.or_eq_false_iff.mp hc).2
  have hself : inLineOf (c :: rest) = c :: inLineOf rest := by
    rw [inLineOf, List.takeWhile_cons_of_pos (by simp [hbreak]), inLineOf]
  have hall : ∀ d ∈ inLineOf rest, Text.isLineBreak d = false := fun d hd => by
    simpa using Literal.all_takeWhile _ _ d hd
  refine ⟨fun hlast => ?_, false, fun other => ?_⟩
  · rcases List.mem_cons.mp (List.mem_of_getLast? hlast) with rfl | hmem
    · cases hbreak
    · cases hall _ hmem
  have hopens := opensLineComment_inLineOf ('\n' :: other) h
  rw [hself] at hopens
  obtain ⟨htake, hdrop⟩ := inLineOf_append other hall
  rw [List.cons_append, scanFrom, ← Lexer.isSpace, if_neg (by simp [hc]), ← List.cons_append,
    if_pos hopens, scanFrom_inLine, inLineOf, htake, hdrop, scanFrom_space (by decide)]
  rfl

theorem isComment_block {c : Char} {t rest : List Char} (hc : Lexer.isSpace c = false)
    (h : opensBlockComment (c :: (t ++ rest)) = true) (hlast : t.getLast? = some '/')
    (hall : ∀ fresh other, scanFrom (.inBlock fresh [c]) (t ++ other)
      = cons (.comment true ([c].reverse ++ t)) (scanFrom (.between fresh) other)) :
    IsComment (c :: t) := by
  obtain ⟨t', rfl, rfl⟩ : ∃ t', c = '/' ∧ t = '*' :: t' := by
    cases t with
    | nil => cases hlast
    | cons d t' =>
      have hcd : '/' = c ∧ '*' = d := by simpa [opensBlockComment] using h
      exact ⟨t', hcd.1.symm, by rw [hcd.2]⟩
  refine ⟨?_, true, fun other => ?_⟩
  · rw [List.getLast?_cons, hlast]
    decide
  have hgo := hall true ('\n' :: other)
  rw [List.cons_append, List.cons_append, scanFrom, ← Lexer.isSpace, if_neg (by simp [hc]),
    if_neg (by simp [opensLineComment]), if_pos (by simp [opensBlockComment]),
    ← List.cons_append, hgo]
  rfl

/-- A text that does not go on with a gap. -/
structure Stops (fresh : Bool) (text : List Char) : Prop where
  space : ∀ c ∈ text.head?, Lexer.isSpace c = false
  line : opensLineComment fresh text = false
  block : opensBlockComment text = false

/-- The gaps that end: they grow from a text that is no gap by blanks and comments. A line break
between comments makes the rest begin on a new line. -/
theorem gap_induction {P : Bool → Gap → Prop}
    (stop : ∀ fresh text, Stops fresh text → P fresh ⟨[], none, text⟩)
    (blank : ∀ fresh c gap, P (fresh || Text.isLineBreak c) gap → P fresh (consBlank c gap))
    (comment : ∀ fresh block t gap, IsComment t → P fresh gap → P fresh (cons (.comment block t) gap))
    {fresh : Bool} {text : List Char}
    (hu : (scanFrom (.between fresh) text).unfinished = none) :
    P fresh (scanFrom (.between fresh) text) := by
  induction hn : text.length using Nat.strong_induction_on generalizing fresh text with
  | _ n ih =>
    cases text with
    | nil => exact stop fresh [] ⟨by simp, by cases fresh <;> rfl, rfl⟩
    | cons c rest =>
      subst hn
      by_cases hc : Lexer.isSpace c = true
      · rw [scanFrom_space hc] at hu ⊢
        exact blank fresh c _ (ih rest.length (by simp) (by simpa using hu) rfl)
      simp only [Bool.not_eq_true] at hc
      rw [scanFrom, ← Lexer.isSpace, if_neg (by simp [hc])] at hu ⊢
      split
      · next hline =>
        rw [if_pos hline] at hu
        rw [scanFrom_inLine] at hu ⊢
        refine comment _ _ _ _ (isComment_line hc hline) ?_
        have hends := Literal.ends_dropWhile (!Text.isLineBreak ·) rest
        cases hdrop : rest.dropWhile (!Text.isLineBreak ·) with
        | nil => exact stop fresh [] ⟨by simp, by cases fresh <;> rfl, rfl⟩
        | cons b after =>
          rw [hdrop, Literal.ends_cons, Bool.not_eq_false'] at hends
          have hlen : after.length < (c :: rest).length := by
            have := (List.dropWhile_suffix (!Text.isLineBreak ·) (l := rest)).length_le
            rw [hdrop] at this
            simp only [List.length_cons] at this ⊢
            omega
          simp only [hdrop, cons] at hu
          refine blank fresh b _ ?_
          rw [hends, Bool.or_true]
          exact ih after.length hlen (by simpa using hu) rfl
      · next hline =>
        rw [if_neg hline] at hu
        split
        · next hblock =>
          rw [if_pos hblock] at hu
          obtain ⟨t, after, rfl, hne, hall⟩ := scanFrom_inBlock hu
          rw [hall] at hu ⊢
          refine comment _ _ _ _ (isComment_block hc hblock hne hall) ?_
          have hlen : after.length < (c :: (t ++ after)).length := by
            simp only [List.length_cons, List.length_append]
            omega
          exact ih after.length hlen hu rfl
        · next hblock =>
          exact stop fresh _ ⟨by simpa using hc, by simpa using hline, by simpa using hblock⟩

/-- Every comment of a gap is a comment of its own. -/
theorem kept_comments (keep : Bool) {fresh : Bool} {text rest : List Char}
    {pieces : List Piece}
    (h : scanFrom (.between fresh) text = ⟨pieces, none, rest⟩) :
    ∀ t ∈ kept keep pieces, IsComment t.toList := by
  have hall := gap_induction (P := fun _ gap => ∀ t ∈ kept keep gap.pieces, IsComment t.toList)
    (fun _ _ _ => by simp [kept]) (fun _ c gap ih => by simpa using ih)
    (fun _ block t gap ht ih => by
      cases keep
      · simp [kept]
      · simpa [kept, cons, ht] using ih)
    (show (scanFrom (.between fresh) text).unfinished = none by rw [h])
  rwa [h] at hall

theorem endsLine_consBlank (c : Char) (gap : Gap) :
    (consBlank c gap).pieces.any Piece.endsLine
      = (Text.isLineBreak c || gap.pieces.any Piece.endsLine) := by
  unfold consBlank
  split
  · next h => simp [h, Piece.endsLine, Bool.or_assoc]
  · simp [Piece.endsLine]

/-- What stands behind a gap does not go on with it. -/
theorem stops_rest {fresh : Bool} {text rest : List Char} {pieces : List Piece}
    (h : scanFrom (.between fresh) text = ⟨pieces, none, rest⟩) :
    Stops (fresh || pieces.any Piece.endsLine) rest := by
  have hall := gap_induction
    (P := fun fresh gap => Stops (fresh || gap.pieces.any Piece.endsLine) gap.rest)
    (fun fresh _ hs => by simpa using hs)
    (fun fresh c gap ih => by simpa [endsLine_consBlank, Bool.or_assoc] using ih)
    (fun _ _ _ _ _ ih => by simpa [cons, Piece.endsLine] using ih)
    (show (scanFrom (.between fresh) text).unfinished = none by rw [h])
  rwa [h] at hall

end Gap

/-! ## Feeding -/

/-- The two symbols a regular expression can hide behind. -/
def Sym.isSlash (s : Sym) : Bool := s.tag == .div || (s.tag == .assign && s.datum == some .div)

/-- The symbol of a regular expression. -/
def Sym.pattern (text : List Char) : Sym := ⟨.regExp, none, some (String.ofList text)⟩

/-- A text is a regular expression of its own. -/
def Lexer.IsPattern (d : Dialect) (text : List Char) : Prop :=
  d.hasRegExpLiterals = true ∧ ∃ body, text = '/' :: body
    ∧ (∀ c ∈ body.head?, c ≠ '/' ∧ c ≠ '*') ∧ Literal.regExp body = .token body []

theorem Lexer.IsPattern.last_not_space {d : Dialect} {text : List Char}
    (h : Lexer.IsPattern d text) : ∀ c ∈ text.getLast?, Lexer.isSpace c = false := by
  obtain ⟨-, body, rfl, -, hr⟩ := h
  obtain ⟨-, -, hlast, -⟩ := Literal.regExp_token hr
  intro c hc
  rw [List.getLast?_cons, Option.mem_def, Option.some.injEq] at hc
  cases hb : body.getLast? with
  | none =>
    rw [hb] at hc
    obtain rfl : '/' = c := hc
    decide
  | some b =>
    rw [hb] at hc
    obtain rfl : b = c := hc
    rcases hlast b hb with rfl | hpart
    · decide
    · exact Lexer.identPart_not_space hpart

section Feeds
variable (d : Dialect)

/-- What the grammar gets from a text: words, and the comments behind the last one. A regular
expression is first read as a slash. -/
inductive Feeds : Bool → List Char → List Word → List String → Prop
  | finish {fresh text pieces} : Gap.scanFrom (.between fresh) text = ⟨pieces, none, []⟩ →
      Feeds fresh text [] (Gap.kept true pieces)
  | word {fresh text pieces c t rest w ws tail} :
      Gap.scanFrom (.between fresh) text = ⟨pieces, none, t ++ rest⟩ → t.head? = some c →
      w.sym.tag ≠ .regExp → w.sym.tag ≠ .endOfInput →
      Lexer.lexeme d c (t ++ rest) = .ok (.of w.sym t rest) →
      (Gap.breaks pieces = true → w.lead.breaks = true) →
      w.lead.remarks = Gap.kept true pieces → Feeds false rest ws tail →
      Feeds fresh text (w :: ws) tail
  | pattern {fresh text pieces body rest w ws tail} :
      Gap.scanFrom (.between fresh) text = ⟨pieces, none, '/' :: (body ++ rest)⟩ →
      d.hasRegExpLiterals = true → Literal.regExp (body ++ rest) = .token body rest →
      w.sym = .pattern ('/' :: body) → (Gap.breaks pieces = true → w.lead.breaks = true) →
      w.lead.remarks = Gap.kept true pieces → Feeds false rest ws tail →
      Feeds fresh text (w :: ws) tail

end Feeds

namespace Feeds
variable {d : Dialect} {fresh : Bool} {text rest : List Char} {w : Word} {ws : List Word}
  {tail : List String}

/-- A gap that begins otherwise changes only what comes before the first word. -/
theorem of_scan {fresh' : Bool} {text' : List Char} (more : List String)
    (h : Feeds d fresh text ws tail)
    (hscan : ∀ pieces rest, Gap.scanFrom (.between fresh) text = ⟨pieces, none, rest⟩ →
      ∃ pieces', Gap.scanFrom (.between fresh') text' = ⟨pieces', none, rest⟩
        ∧ Gap.kept true pieces' = more ++ Gap.kept true pieces
        ∧ (Gap.breaks pieces' = true →
          Gap.breaks pieces = true ∨ ∀ w ∈ ws.head?, w.lead.breaks = true)) :
    Feeds d fresh' text' (remarked more ws) (remarkedTail more ws tail) := by
  cases h with
  | finish hs =>
    obtain ⟨pieces', hs', hkept, -⟩ := hscan _ _ hs
    rw [remarkedTail, List.isEmpty_nil, if_pos rfl, ← hkept]
    exact finish hs'
  | word hs hc hr he hl hb hm hf =>
    obtain ⟨pieces', hs', hkept, hbreak⟩ := hscan _ _ hs
    refine word hs' hc hr he hl (fun h => ?_) (by rw [hkept, ← hm]; rfl) hf
    exact (hbreak h).elim hb fun h => by simpa [Lead.remarked] using h
  | pattern hs hd hr hw hb hm hf =>
    obtain ⟨pieces', hs', hkept, hbreak⟩ := hscan _ _ hs
    refine pattern hs' hd hr hw (fun h => ?_) (by rw [hkept, ← hm]; rfl) hf
    exact (hbreak h).elim hb fun h => by simpa [Lead.remarked] using h

/-- A blank or a line break in front of a text. -/
theorem space {c : Char} (hc : Lexer.isSpace c = true)
    (h : Feeds d (fresh || Text.isLineBreak c) text ws tail)
    (hb : Text.isLineBreak c = true → ∀ w ∈ ws.head?, w.lead.breaks = true) :
    Feeds d fresh (c :: text) ws tail := by
  suffices hspace : Feeds d fresh (c :: text) (remarked [] ws) (remarkedTail [] ws tail) by
    simpa using hspace
  refine of_scan [] h fun pieces rest hs => ?_
  refine ⟨(Gap.consBlank c ⟨pieces, none, rest⟩).pieces, ?_, by simp, fun hbreak => ?_⟩
  · rw [Gap.scanFrom_space hc, hs]
    unfold Gap.consBlank
    split <;> rfl
  · simp only [Gap.breaks_consBlank, Bool.or_eq_true] at hbreak
    exact hbreak.elim (fun h => Or.inr (hb h)) Or.inl

/-- A comment on a line of its own in front of a text. -/
theorem comment {t : List Char} (hc : Gap.IsComment t)
    (h : Feeds d true ('\n' :: text) ws tail) (hb : ∀ w ∈ ws.head?, w.lead.breaks = true) :
    Feeds d true (t ++ '\n' :: text) (remarked [String.ofList t] ws)
      (remarkedTail [String.ofList t] ws tail) := by
  obtain ⟨-, block, hc⟩ := hc
  refine of_scan _ h fun pieces rest hs => ?_
  refine ⟨.comment block t :: pieces, ?_, ?_, fun _ => Or.inr hb⟩
  · rw [hc, hs]
    rfl
  · simp [Gap.kept]

/-- A lexeme in front of a text that does not glue to it. -/
theorem lexeme {t : List Char} (ht : Lexer.IsLexeme d t w.sym) (hr : w.sym.tag ≠ .regExp)
    (he : w.sym.tag ≠ .endOfInput) (hw : w.lead.remarks = [])
    (hg : ∀ c ∈ text.head?, Lexer.glues t c = false) (h : Feeds d false text ws tail) :
    Feeds d fresh (t ++ text) (w :: ws) tail := by
  obtain ⟨c, hc, hl⟩ := ht.append hg
  exact word (ht.scanFrom hg fresh) hc hr he hl (by simp [Gap.breaks]) (by simp [hw, Gap.kept]) h

theorem scanFrom_pattern {body rest : List Char} (h : ∀ c ∈ body.head?, c ≠ '/' ∧ c ≠ '*')
    (hne : body ≠ []) (fresh : Bool) :
    Gap.scanFrom (.between fresh) ('/' :: (body ++ rest)) = ⟨[], none, '/' :: (body ++ rest)⟩ := by
  cases body with
  | nil => exact absurd rfl hne
  | cons c body =>
    obtain ⟨h1, h2⟩ := h c rfl
    have hspace : (Text.isBlank '/' || Text.isLineBreak '/') = false := by decide
    rw [Gap.scanFrom, if_neg (by simp [hspace]), if_neg, if_neg]
    · simpa [Gap.opensBlockComment] using Ne.symm h2
    · simpa [Gap.opensLineComment] using Ne.symm h1

/-- A regular expression in front of a text that does not go on with its flags. -/
theorem regExp {t : List Char} (ht : Lexer.IsPattern d t) (hw : w.sym = .pattern t)
    (hm : w.lead.remarks = []) (hg : ∀ c ∈ text.head?, Text.isIdentPart c = false)
    (h : Feeds d false text ws tail) : Feeds d fresh (t ++ text) (w :: ws) tail := by
  obtain ⟨hd, body, rfl, hhead, hr⟩ := ht
  have hne : body ≠ [] := by
    rintro rfl
    cases hr
  obtain ⟨-, -, -, hall⟩ := Literal.regExp_token hr
  exact pattern (scanFrom_pattern hhead hne fresh) hd (hall text hg) hw (by simp [Gap.breaks])
    (by simp [hm, Gap.kept]) h

/-- A text has no more words than characters. -/
theorem length_le (h : Feeds d fresh text ws tail) : ws.length ≤ text.length := by
  induction h with
  | finish hs => exact Nat.zero_le _
  | @word fresh text pieces c t rest _ ws tail hs hc hr he hl hb hm hf ih =>
    have hlen := Gap.scanFrom_length (.between fresh) text
    rw [hs] at hlen
    have hne : 0 < t.length := List.length_pos_iff.mpr fun h => by simp [h] at hc
    simp only [List.length_append, List.length_cons] at hlen ⊢
    omega
  | @pattern fresh text pieces body rest _ ws tail hs hd hr hw hb hm hf ih =>
    have hlen := Gap.scanFrom_length (.between fresh) text
    rw [hs] at hlen
    simp only [List.length_append, List.length_cons] at hlen ⊢
    omega

end Feeds
end ScriptPress
