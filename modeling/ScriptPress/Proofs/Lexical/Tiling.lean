import ScriptPress.Proofs.Lexical.Next

/-! # Tiling

A run of the lexer cuts its text into blanks, comments and tokens, and each token carries what its
own characters spell. The caller of the lexer decides which slashes are read again as regular
expressions, so nothing here depends on a grammar.
-/
namespace ScriptPress

/-! ## Words and their names -/

namespace Literal

/-- The name a word's text stands for: an escape stands for the character of its four digits. -/
inductive Decodes : List Char → List Char → Prop
  | nil : Decodes [] []
  | plain {c text name} : c ≠ '\\' → Decodes text name → Decodes (c :: text) (c :: name)
  | escape {a b c d n text name} : Text.hexNumber? [a, b, c, d] = some n → n.isValidChar →
      Decodes text name →
      Decodes ('\\' :: 'u' :: a :: b :: c :: d :: text) (Char.ofNat n :: name)

theorem escapedChar_value {a b c d ch : Char} (h : escapedChar? a b c d = some ch) :
    ∃ n, Text.hexNumber? [a, b, c, d] = some n ∧ n.isValidChar ∧ ch = Char.ofNat n := by
  simp only [escapedChar?] at h
  split at h
  · next n hn =>
    split at h
    · next hv => exact ⟨n, hn, hv, (Option.some.inj h).symm⟩
    · cases h
  · cases h

theorem wordFrom_decodes {first : Bool} {text : List Char} {w : Word}
    (h : wordFrom first text = some w) :
    Decodes w.taken w.name ∧ (w.escaped = false → w.taken = w.name) := by
  induction first, text using wordFrom.induct generalizing w with
  | case1 first a b c d rest hnone => simp [wordFrom, hnone] at h
  | case2 first a b c d rest ch hch hok ih =>
    rw [wordFrom, hch] at h
    simp only [hok, if_true] at h
    obtain ⟨v, hv, rfl⟩ := Option.map_eq_some_iff.mp h
    obtain ⟨n, hn, hvalid, rfl⟩ := escapedChar_value hch
    exact ⟨.escape hn hvalid (ih hv).1, by simp⟩
  | case3 first a b c d rest ch hch hbad => simp [wordFrom, hch, hbad] at h
  | case4 first rest hno =>
    rw [wordFrom.eq_def] at h
    split at h
    · next heq => exact absurd (List.cons.inj heq).2 (hno _ _ _ _ _)
    · cases h
    · next hb heq => exact (hb (List.cons.inj heq).1.symm).elim
    · next heq => cases heq
  | case5 first c rest hu hb hpart ih =>
    rw [wordFrom_plain hpart] at h
    obtain ⟨v, hv, rfl⟩ := Option.map_eq_some_iff.mp h
    obtain ⟨hd, he⟩ := ih hv
    exact ⟨.plain hb hd, fun hf => by simp [he hf]⟩
  | case6 first c rest hu hb hpart =>
    have hends : Ends wordGoesOn (c :: rest) := by
      simpa [ends_cons, wordGoesOn, hpart] using hb
    rw [wordFrom_end hends, Option.some.injEq] at h
    subst h
    exact ⟨.nil, fun _ => rfl⟩
  | case7 first =>
    rw [wordFrom_end (ends_nil _), Option.some.injEq] at h
    subst h
    exact ⟨.nil, fun _ => rfl⟩

end Literal

/-! ## What a token carries -/

/-- A token carries what its characters spell, seen before the text that follows them. -/
inductive Token.Spells (d : Dialect) (slice after : List Char) (t : Token) : Prop
  | literal : t.tag = .number ∨ t.tag = .string ∨ t.tag = .regExp → t.datum = none →
      t.text = some (String.ofList slice) → Spells d slice after t
  | name (name : List Char) : t.tag = .identifier → t.datum = none → Literal.Decodes slice name →
      keyword? (String.ofList name) d = none → t.text = some (String.ofList name) →
      Spells d slice after t
  | keyword : keyword? (String.ofList slice) d = some (t.tag, t.datum) →
      t.text = (if t.tag = .reserved then some (String.ofList slice) else none) →
      Spells d slice after t
  | sign (p : Punctuator) : p ∈ Punctuator.table → slice = p.spelling → t.tag = p.tag →
      t.datum = p.datum → t.text = none →
      (∀ q ∈ Punctuator.table, q.spelling <+: slice ++ after → q.spelling.length ≤ slice.length) →
      Spells d slice after t

namespace Punctuator

theorem table_sorted :
    table.Pairwise fun p q => q.spelling.length ≤ p.spelling.length := by decide

theorem find_longest {α : Type} {p : α → Bool} {size : α → Nat} {l : List α} {a : α}
    (hl : l.Pairwise fun a b => size b ≤ size a) (h : l.find? p = some a) :
    ∀ b ∈ l, p b = true → size b ≤ size a := by
  induction l with
  | nil => cases h
  | cons c l ih =>
    obtain ⟨hc, hl⟩ := List.pairwise_cons.mp hl
    intro b hb hpb
    by_cases hpc : p c = true
    · obtain rfl : c = a := by simpa [List.find?_cons, hpc] using h
      rcases List.mem_cons.mp hb with rfl | hb
      · exact Nat.le_refl _
      · exact hc b hb
    · have h : l.find? p = some a := by simpa [List.find?_cons, hpc] using h
      rcases List.mem_cons.mp hb with rfl | hb
      · exact absurd hpb hpc
      · exact ih hl h b hb hpb

theorem longest_max {text : List Char} {p : Punctuator} (h : longest? text = some p) :
    ∀ q ∈ table, q.spelling <+: text → q.spelling.length ≤ p.spelling.length := by
  intro q hq hprefix
  exact find_longest table_sorted h q hq (List.isPrefixOf_iff_prefix.mpr hprefix)

end Punctuator

namespace Lexer

/-- A token read from the head of a text carries what its characters spell. -/
theorem spells_of_lexeme {d : Dialect} {c : Char} {text taken rest : List Char} {t : Token}
    (hc : text.head? = some c) (h : lexeme d c text = .ok (.of t.sym taken rest)) :
    t.Spells d taken rest := by
  obtain ⟨hsplit, -, -⟩ := lexeme_ok hc h
  rw [lexeme_eq hc] at h
  split at h
  · obtain ⟨-, hsym⟩ := literal_ok h
    obtain ⟨htag, hdatum, htext⟩ := Sym.mk.inj hsym
    exact .literal (Or.inl htag) hdatum htext
  split at h
  · obtain ⟨w, hw, hs, rfl, rfl⟩ := wordLexeme_ok h
    obtain ⟨hdecodes, hplain⟩ := Literal.wordFrom_decodes hw
    generalize hsym : t.sym = s at hs
    cases hs with
    | identifier hk =>
      obtain ⟨htag, hdatum, htext⟩ := Sym.mk.inj hsym
      exact .name w.name htag hdatum hdecodes hk htext
    | keyword hk he =>
      obtain ⟨rfl, rfl, htext⟩ := Sym.mk.inj hsym
      rw [← hplain he] at hk htext
      exact .keyword hk (by simpa using htext)
  split at h
  · obtain ⟨-, hsym⟩ := literal_ok h
    obtain ⟨htag, hdatum, htext⟩ := Sym.mk.inj hsym
    exact .literal (Or.inr (Or.inl htag)) hdatum htext
  · obtain ⟨p, hp, -, hsym, rfl, -⟩ := signLexeme_ok h
    obtain ⟨htag, hdatum, htext⟩ := Sym.mk.inj hsym
    refine .sign p (longest_splits hp).1 rfl htag hdatum htext ?_
    rw [← hsplit]
    exact Punctuator.longest_max hp

end Lexer

/-! ## Parts of a text -/

/-- A part of a text: a piece of a gap, or a token with its characters. -/
inductive Part where
  | trivia (piece : Gap.Piece)
  | token (t : Token) (slice : List Char)

namespace Part

def text : Part → List Char
  | trivia piece => piece.text
  | token _ slice => slice

def token? : Part → Option Token
  | trivia _ => none
  | token t _ => some t

/-- Whether no token has begun on the line after the part, when that is so before it or not. -/
def freshAfter (fresh : Bool) : Part → Bool
  | trivia piece => fresh || piece.endsLine
  | token _ _ => false

/-- The characters that parts take together. -/
def texts (parts : List Part) : List Char := parts.flatMap text

/-- Where each comment among parts begins and ends, with its characters. The parts stand from a
byte offset on. -/
def commentsFrom (offset : Nat) : List Part → List (Nat × Nat × List Char)
  | [] => []
  | .trivia (.comment _ text) :: parts =>
    (offset, offset + Text.byteLength text, text)
      :: commentsFrom (offset + Text.byteLength text) parts
  | part :: parts => commentsFrom (offset + Text.byteLength part.text) parts

/-- A part may stand at a byte offset before a text. A block comment ends at the first mark that
can end it, a line comment at a line break or the end of the text; `-->` opens one where no token
has begun on the line. -/
inductive Fits (d : Dialect) (fresh : Bool) (offset : Nat) (after : List Char) : Part → Prop
  | blanks {text} : text ≠ [] → (∀ c ∈ text, Text.isBlank c ∨ Text.isLineBreak c) →
      Fits d fresh offset after (.trivia (.blanks text))
  | block {body} : ¬ "*/".toList <:+: body →
      Fits d fresh offset after (.trivia (.comment true ("/*".toList ++ body ++ "*/".toList)))
  | line {text} : ("//".toList <+: text ∨ "<!--".toList <+: text ∨ fresh ∧ "-->".toList <+: text) →
      (∀ c ∈ text, ¬ Text.isLineBreak c) → (∀ c ∈ after.head?, Text.isLineBreak c) →
      Fits d fresh offset after (.trivia (.comment false text))
  | token {t slice} : t.start = offset → t.stop = offset + Text.byteLength slice → slice ≠ [] →
      t.Spells d slice after → Fits d fresh offset after (.token t slice)

/-- Parts tile the text between a byte offset and a rest. -/
def Tile (d : Dialect) : (fresh : Bool) → (offset : Nat) → List Part → (rest : List Char) → Prop
  | _, _, [], _ => True
  | fresh, offset, part :: parts, rest =>
    Fits d fresh offset (texts parts ++ rest) part
      ∧ Tile d (part.freshAfter fresh) (offset + Text.byteLength part.text) parts rest

theorem texts_append (parts more : List Part) : texts (parts ++ more) = texts parts ++ texts more :=
  List.flatMap_append

theorem byteLength_append (text more : List Char) :
    Text.byteLength (text ++ more) = Text.byteLength text + Text.byteLength more := by
  induction text with
  | nil => simp [Text.byteLength]
  | cons c text ih =>
    simp only [Text.byteLength, List.cons_append, List.foldr_cons] at ih ⊢
    omega

theorem texts_cons (part : Part) (parts : List Part) :
    texts (part :: parts) = part.text ++ texts parts := rfl

theorem tile_append {d : Dialect} {fresh : Bool} {offset : Nat} {parts more : List Part}
    {rest : List Char} :
    Tile d fresh offset (parts ++ more) rest ↔ Tile d fresh offset parts (texts more ++ rest)
      ∧ Tile d (parts.foldl freshAfter fresh) (offset + Text.byteLength (texts parts)) more rest := by
  induction parts generalizing fresh offset with
  | nil => simp [Tile, texts, Text.byteLength]
  | cons part parts ih =>
    simp only [List.cons_append, Tile, ih, texts_append, texts_cons, List.foldl_cons,
      byteLength_append, List.append_assoc, Nat.add_assoc, and_assoc]

theorem commentsFrom_append (offset : Nat) (parts more : List Part) :
    commentsFrom offset (parts ++ more) = commentsFrom offset parts
      ++ commentsFrom (offset + Text.byteLength (texts parts)) more := by
  induction parts generalizing offset with
  | nil => simp [commentsFrom, texts, Text.byteLength]
  | cons part parts ih =>
    rw [texts_cons, byteLength_append, ← Nat.add_assoc, List.cons_append]
    cases part with
    | token t slice => exact ih _
    | trivia piece =>
      cases piece with
      | blanks text => exact ih _
      | comment block text =>
        simp only [commentsFrom, List.cons_append, List.cons.injEq, true_and]
        exact ih _

end Part

/-! ## Gaps -/

namespace Gap

open Part (Fits Tile texts)

def parts (gap : Gap) : List Part := gap.pieces.map .trivia

/-- What a gap tells about its text: its pieces tile it, wherever it stands. -/
structure Tiles (d : Dialect) (fresh : Bool) (text : List Char) (gap : Gap) : Prop where
  whole : texts gap.parts ++ gap.rest = text
  tile : ∀ offset, Tile d fresh offset gap.parts gap.rest

theorem Tiles.blank {d : Dialect} {fresh : Bool} {c : Char} {text : List Char} {gap : Gap}
    (hc : Lexer.isSpace c = true) (h : Tiles d (fresh || Text.isLineBreak c) text gap) :
    Tiles d fresh (c :: text) (consBlank c gap) := by
  obtain ⟨pieces, unfinished, rest⟩ := gap
  have hspace : Text.isBlank c = true ∨ Text.isLineBreak c = true := by
    simpa [Lexer.isSpace] using hc
  obtain ⟨hwhole, htile⟩ := h
  cases pieces with
  | nil =>
    refine ⟨congrArg (c :: ·) hwhole, fun offset => ⟨.blanks (by simp) (by simpa using hspace), ?_⟩⟩
    trivial
  | cons piece pieces =>
    cases piece with
    | blanks sofar =>
      refine ⟨congrArg (c :: ·) hwhole, fun offset => ?_⟩
      obtain ⟨hfits, hrest⟩ := htile (offset + c.utf8Size)
      cases hfits with
      | blanks hne hall =>
        refine ⟨.blanks (by simp) (List.forall_mem_cons.mpr ⟨hspace, hall⟩), ?_⟩
        simpa [Part.freshAfter, Piece.endsLine, Bool.or_assoc, Nat.add_assoc, Part.text, Piece.text,
          Text.byteLength] using hrest
    | comment block sofar =>
      refine ⟨congrArg (c :: ·) hwhole, fun offset =>
        ⟨.blanks (by simp) (by simpa using hspace), ?_⟩⟩
      simpa [Part.freshAfter, Piece.endsLine, Gap.parts, Part.text, Piece.text]
        using htile (offset + Text.byteLength [c])

theorem closesBlock_iff (body : List Char) :
    closesBlock (body.reverse ++ ['*', '/']) = true ↔ body.getLast? = some '*' := by
  rw [List.getLast?_eq_head?_reverse]
  match body.reverse with
  | [] => simp [closesBlock]
  | [c] | c :: _ :: [] | c :: _ :: _ :: _ =>
    by_cases hc : c = '*'
    · simp [hc, closesBlock]
    · simp [hc, closesBlock]

theorem not_infix_concat {body : List Char} {c : Char} (hbody : ¬ ['*', '/'] <:+: body)
    (hc : c = '/' → body.getLast? ≠ some '*') : ¬ ['*', '/'] <:+: body ++ [c] := by
  rintro ⟨before, after, h⟩
  rcases List.eq_nil_or_concat after with rfl | ⟨init, last, rfl⟩
  · rw [List.append_nil, show ['*', '/'] = ['*'] ++ ['/'] from rfl, ← List.append_assoc] at h
    obtain ⟨rfl, hslash⟩ := List.append_inj' h rfl
    exact hc (by simpa using hslash.symm) (by simp)
  · rw [List.concat_eq_append, ← List.append_assoc] at h
    exact hbody ⟨before, init, (List.append_inj' h rfl).1⟩

/-- A block comment ends at the first mark that can end it. -/
theorem scanFrom_body {fresh : Bool} (body : List Char) {text : List Char}
    (hbody : ¬ ['*', '/'] <:+: body)
    (h : (scanFrom (.inBlock fresh (body.reverse ++ ['*', '/'])) text).unfinished = none) :
    ∃ inner rest, body ++ text = inner ++ '*' :: '/' :: rest ∧ ¬ ['*', '/'] <:+: inner
      ∧ rest.length < text.length
      ∧ scanFrom (.inBlock fresh (body.reverse ++ ['*', '/'])) text
        = cons (.comment true ('/' :: '*' :: inner ++ ['*', '/']))
            (scanFrom (.between fresh) rest) := by
  induction text generalizing body with
  | nil => simp [scanFrom] at h
  | cons c text ih =>
    rw [scanFrom] at h ⊢
    by_cases hclose : (c == '/' && closesBlock (body.reverse ++ ['*', '/'])) = true
    · obtain ⟨rfl, hlast⟩ : c = '/' ∧ body.getLast? = some '*' := by
        simpa [closesBlock_iff] using hclose
      obtain ⟨inner, rfl⟩ := List.getLast?_eq_some_iff.mp hlast
      rw [if_pos hclose]
      refine ⟨inner, text, by simp, fun hin => hbody ?_, by simp, by simp⟩
      exact hin.trans (List.prefix_append inner _).isInfix
    · rw [if_neg hclose] at h ⊢
      have hgo : c :: (body.reverse ++ ['*', '/']) = (body ++ [c]).reverse ++ ['*', '/'] := by simp
      rw [hgo] at h ⊢
      have hbody' := not_infix_concat (c := c) hbody fun hc hlast => by
        simp [hc, (closesBlock_iff body).mpr hlast] at hclose
      obtain ⟨inner, rest, hsplit, hinner, hlen, hscan⟩ := ih _ hbody' h
      exact ⟨inner, rest, by simpa using hsplit, hinner, by simp; omega, hscan⟩

theorem opens_of_line {fresh : Bool} {text : List Char} (h : opensLineComment fresh text = true) :
    "//".toList <+: inLineOf text ∨ "<!--".toList <+: inLineOf text
      ∨ fresh ∧ "-->".toList <+: inLineOf text := by
  have hkeep : ∀ m : List Char, (∀ c ∈ m, Text.isLineBreak c = false) →
      m.isPrefixOf text = true → m <+: inLineOf text := fun m hm hp => by
    have hline : m.isPrefixOf (inLineOf text ++ []) = true := isPrefixOf_inLineOf hm hp
    rwa [List.append_nil, List.isPrefixOf_iff_prefix] at hline
  simp only [opensLineComment, Bool.or_eq_true, Bool.and_eq_true] at h
  rcases h with (h | h) | ⟨hfresh, h⟩
  · exact Or.inl (hkeep _ (Literal.forall_chars (by decide)) h)
  · exact Or.inr (Or.inl (hkeep _ (Literal.forall_chars (by decide)) h))
  · exact Or.inr (Or.inr ⟨hfresh, hkeep _ (Literal.forall_chars (by decide)) h⟩)

theorem Tiles.line {d : Dialect} {fresh : Bool} {text after : List Char} {gap : Gap}
    (hopens : opensLineComment fresh text = true)
    (hafter : text.dropWhile (!Text.isLineBreak ·) = after) (h : Tiles d fresh after gap) :
    Tiles d fresh text (cons (.comment false (inLineOf text)) gap) := by
  have hwhole : inLineOf text ++ after = text := hafter ▸ List.takeWhile_append_dropWhile
  have hends : ∀ c ∈ after.head?, Text.isLineBreak c = true := fun c hc => by
    simpa using Literal.ends_dropWhile (!Text.isLineBreak ·) text c (hafter ▸ hc)
  refine ⟨?_, fun offset => ⟨.line (opens_of_line hopens) (fun c hc => ?_) ?_, ?_⟩⟩
  · exact Eq.trans (List.append_assoc ..) ((congrArg (inLineOf text ++ ·) h.whole).trans hwhole)
  · simpa using Literal.all_takeWhile _ _ c hc
  · exact h.whole ▸ hends
  · rw [Part.freshAfter, Piece.endsLine, Bool.or_false]
    exact h.tile _

theorem Tiles.block {d : Dialect} {fresh : Bool} {inner after : List Char} {gap : Gap}
    (hinner : ¬ ['*', '/'] <:+: inner) (h : Tiles d fresh after gap) :
    Tiles d fresh ('/' :: '*' :: (inner ++ '*' :: '/' :: after))
      (cons (.comment true ('/' :: '*' :: inner ++ ['*', '/'])) gap) := by
  refine ⟨?_, fun offset => ⟨.block hinner, ?_⟩⟩
  · rw [← h.whole]
    simp [cons, parts, Part.texts, Part.text, Piece.text]
  · rw [Part.freshAfter, Piece.endsLine, Bool.or_false]
    exact h.tile _

/-- The pieces of a gap that ends tile the text it takes. -/
theorem scanFrom_tiles (d : Dialect) {fresh : Bool} {text : List Char}
    (h : (scanFrom (.between fresh) text).unfinished = none) :
    Tiles d fresh text (scanFrom (.between fresh) text) := by
  induction hn : text.length using Nat.strong_induction_on generalizing fresh text with
  | _ n ih =>
    subst hn
    cases text with
    | nil => exact ⟨rfl, fun _ => trivial⟩
    | cons c rest =>
      by_cases hc : Lexer.isSpace c = true
      · rw [scanFrom_space hc] at h ⊢
        exact Tiles.blank hc (ih rest.length (by simp) (by simpa using h) rfl)
      simp only [Bool.not_eq_true] at hc
      have hbreak : Text.isLineBreak c = false := (Bool.or_eq_false_iff.mp hc).2
      rw [scanFrom, ← Lexer.isSpace, if_neg (by simp [hc])] at h ⊢
      split
      · next hline =>
        rw [if_pos hline] at h
        have hself : [c].reverse ++ inLineOf rest = inLineOf (c :: rest) := by
          simp [inLineOf, hbreak]
        rw [scanFrom_inLine, hself] at h ⊢
        refine Tiles.line hline (List.dropWhile_cons_of_pos (by simp [hbreak])) ?_
        cases hdrop : rest.dropWhile (!Text.isLineBreak ·) with
        | nil => exact ⟨rfl, fun _ => trivial⟩
        | cons b after =>
          have hlen := (List.dropWhile_suffix (!Text.isLineBreak ·) (l := rest)).length_le
          have hends := Literal.ends_dropWhile (!Text.isLineBreak ·) rest
          rw [hdrop, Literal.ends_cons, Bool.not_eq_false'] at hends
          rw [hdrop, List.length_cons] at hlen
          simp only [hdrop, cons, consBlank_unfinished] at h
          refine Tiles.blank (by simp [Lexer.isSpace, hends]) ?_
          rw [hends, Bool.or_true]
          exact ih after.length (by simp; omega) h rfl
      · next hline =>
        rw [if_neg hline] at h
        split
        · next hblock =>
          rw [if_pos hblock] at h
          obtain ⟨rest, rfl, rfl⟩ : ∃ more, c = '/' ∧ rest = '*' :: more := by
            obtain ⟨more, hmore⟩ := List.isPrefixOf_iff_prefix.mp hblock
            simp only [List.cons_append, List.nil_append, List.cons.injEq] at hmore
            exact ⟨more, hmore.1.symm, hmore.2.symm⟩
          rw [scanFrom, if_neg (by simp)] at h ⊢
          obtain ⟨inner, after, hsplit, hinner, hlen, hscan⟩ :=
            scanFrom_body [] (by simp) h
          rw [List.nil_append] at hsplit
          simp only [List.reverse_nil, List.nil_append] at hscan
          rw [hscan] at h ⊢
          have hafter := ih after.length (by simp; omega) h rfl
          rw [hsplit]
          exact Tiles.block hinner hafter
        · next hblock => exact ⟨rfl, fun _ => trivial⟩

end Gap

/-! ## Runs -/

namespace Lexer

open Part (Fits Tile texts commentsFrom)

/-- The runs of a lexer from a start on, with the tokens they read and the lexer they leave. A
slash that was just returned may be read again as a regular expression, which then takes its
place. -/
inductive Run (start : Lexer) : List Token → Lexer → Prop
  | begin : Run start [] start
  | next {tokens lx t lx'} : Run start tokens lx → lx.next = (.ok t, lx') → t.tag ≠ .endOfInput →
      Run start (tokens ++ [t]) lx'
  | rescan {tokens slash lx t lx'} : Run start (tokens ++ [slash]) lx → slash.isSlash = true →
      lx.rescan slash = (.ok t, lx') → Run start (tokens ++ [t]) lx'

/-- What a call of `next` that returns a token did: it passed a gap, and read a lexeme unless the
text was at its end. -/
theorem next_inv {lx lx' : Lexer} {t : Token} (h : lx.next = (.ok t, lx')) :
    ∃ gap, Gap.scanFrom (.between lx.fresh) lx.rest = gap ∧ gap.unfinished = none
      ∧ t.start = (lx.pass gap).position
      ∧ ((gap.rest = [] ∧ t.tag = .endOfInput ∧ t.stop = t.start ∧ lx' = lx.pass gap)
        ∨ ∃ c l, gap.rest.head? = some c ∧ lexeme lx.dialect c gap.rest = .ok l
          ∧ l = .of t.sym l.taken l.rest ∧ t.stop = t.start + Text.byteLength l.taken
          ∧ lx' = { lx.pass gap with fresh := false }.advance l.taken l.rest) := by
  refine ⟨_, rfl, ?_⟩
  obtain ⟨⟨pieces, unfinished, text⟩, hscan⟩ : ∃ gap, Gap.scan lx.fresh lx.rest = gap := ⟨_, rfl⟩
  have hgap : Gap.scanFrom (.between lx.fresh) lx.rest = ⟨pieces, unfinished, text⟩ := hscan
  rw [hgap]
  have hrest : (lx.pass ⟨pieces, unfinished, text⟩).rest = text := rfl
  have hdialect : (lx.pass ⟨pieces, unfinished, text⟩).dialect = lx.dialect := rfl
  cases unfinished with
  | some comment => simp [next, hscan] at h
  | none =>
    cases text with
    | nil =>
      simp only [next, hscan, hrest, Prod.mk.injEq, Except.ok.injEq] at h
      obtain ⟨rfl, rfl⟩ := h
      exact ⟨rfl, rfl, Or.inl ⟨rfl, rfl, rfl, rfl⟩⟩
    | cons c rest =>
      cases hl : lexeme lx.dialect c (c :: rest) with
      | error fault => simp [next, hscan, hrest, hdialect, hl] at h
      | ok l =>
        simp only [next, hscan, hrest, hdialect, hl, Prod.mk.injEq, Except.ok.injEq] at h
        obtain ⟨rfl, rfl⟩ := h
        exact ⟨rfl, rfl, Or.inr ⟨c, l, rfl, hl, rfl, rfl, rfl⟩⟩

/-- What a successful second reading of a slash did. -/
theorem rescan_inv {lx lx' : Lexer} {slash t : Token} (h : lx.rescan slash = (.ok t, lx')) :
    ∃ taken, slash.reopen lx.rest = taken ++ lx'.rest ∧ t.tag = .regExp ∧ t.datum = none
      ∧ t.text = some (String.ofList ('/' :: taken)) ∧ t.start = slash.start
      ∧ t.stop = lx'.position ∧ lx'.position = slash.start + 1 + Text.byteLength taken
      ∧ lx'.fresh = lx.fresh ∧ lx'.comments = lx.comments ∧ lx'.Like lx := by
  have hreopen : (if slash.tag == .assign then '=' :: lx.rest else lx.rest)
      = slash.reopen lx.rest := rfl
  by_cases hd : lx.dialect.hasRegExpLiterals = true
  · cases hscan : Literal.regExp (slash.reopen lx.rest) with
    | problem p taken =>
      simp only [rescan, hd, hreopen, hscan] at h
      cases h
    | token taken rest =>
      obtain ⟨hsplit, -, -⟩ := Literal.regExp_token hscan
      simp only [rescan, hd, hreopen, hscan, Bool.not_true, Bool.false_eq_true, if_false,
        Prod.mk.injEq, Except.ok.injEq] at h
      obtain ⟨rfl, rfl⟩ := h
      exact ⟨taken, hsplit, rfl, rfl, rfl, rfl, rfl, rfl, rfl, rfl, rfl, rfl⟩
  · simp [rescan, hd] at h

/-- What has been read of a source: parts that tile it up to the place of the lexer, and their
comments. -/
structure Reached (source : List Char) (parts : List Part) (lx : Lexer) : Prop where
  whole : texts parts ++ lx.rest = source
  tile : Tile lx.dialect true 0 parts lx.rest
  position : lx.position = Text.byteLength (texts parts)
  fresh : lx.fresh = parts.foldl Part.freshAfter true
  comments : lx.keepComments = true →
    lx.comments.map (fun c => (c.start, c.stop, c.text.toList)) = commentsFrom 0 parts

theorem foldl_freshAfter (fresh : Bool) (pieces : List Gap.Piece) :
    (pieces.map Part.trivia).foldl Part.freshAfter fresh
      = (fresh || pieces.any Gap.Piece.endsLine) := by
  induction pieces generalizing fresh with
  | nil => simp
  | cons piece pieces ih =>
    simp only [List.map_cons, List.foldl_cons, List.any_cons, ih, Part.freshAfter, Bool.or_assoc]

theorem commentsFrom_places (position line : Nat) (pieces : List Gap.Piece) :
    (Gap.commentsFrom position line pieces).map (fun c => (c.start, c.stop, c.text.toList))
      = commentsFrom position (pieces.map .trivia) := by
  induction pieces generalizing position line with
  | nil => rfl
  | cons piece pieces ih =>
    cases piece with
    | blanks text => exact ih _ _
    | comment block text => simp [Gap.commentsFrom, commentsFrom, ih]

variable {source : List Char} {parts : List Part} {lx lx' : Lexer} {t slash : Token}

/-- A gap that ends goes on with the tiling. -/
theorem Reached.pass (h : Reached source parts lx)
    (hu : (Gap.scanFrom (.between lx.fresh) lx.rest).unfinished = none) :
    Reached source (parts ++ (Gap.scanFrom (.between lx.fresh) lx.rest).parts)
      (lx.pass (Gap.scanFrom (.between lx.fresh) lx.rest)) := by
  have hgap := Gap.scanFrom_tiles lx.dialect hu
  generalize Gap.scanFrom (.between lx.fresh) lx.rest = gap at hgap ⊢
  have hzero : 0 + Text.byteLength (texts parts) = lx.position := by rw [h.position, Nat.zero_add]
  have htexts : texts gap.parts = gap.pieces.flatMap Gap.Piece.text := by
    rw [texts, Gap.parts, List.flatMap_map]
    rfl
  constructor
  · rw [Part.texts_append, List.append_assoc]
    exact (congrArg (texts parts ++ ·) hgap.whole).trans h.whole
  · apply Part.tile_append.mpr
    constructor
    · exact hgap.whole ▸ h.tile
    · rw [← h.fresh]
      exact hgap.tile _
  · rw [Part.texts_append, Part.byteLength_append, htexts, ← h.position]
    rfl
  · rw [List.foldl_append, ← h.fresh]
    exact (foldl_freshAfter lx.fresh gap.pieces).symm
  · intro hkeep
    have hkeep : lx.keepComments = true := hkeep
    rw [Part.commentsFrom_append, ← h.comments hkeep, hzero]
    simp only [Lexer.pass, hkeep, if_true, List.map_append, Lexer.advance]
    exact congrArg _ (commentsFrom_places _ _ _)

/-- A token that carries what its characters spell goes on with the tiling. -/
theorem Reached.token {slice : List Char} (h : Reached source parts lx)
    (hrest : lx.rest = slice ++ lx'.rest) (hne : slice ≠ []) (hstart : t.start = lx.position)
    (hstop : t.stop = t.start + Text.byteLength slice) (hspells : t.Spells lx'.dialect slice lx'.rest)
    (hposition : lx'.position = t.stop) (hfresh : lx'.fresh = false)
    (hcomments : lx'.comments = lx.comments) (hlike : lx'.Like lx) :
    Reached source (parts ++ [.token t slice]) lx' := by
  obtain ⟨hdialect, hkeep⟩ := hlike
  have htext : texts [.token t slice] = slice := by simp [texts, Part.text]
  constructor
  · rw [Part.texts_append, htext, List.append_assoc, ← hrest, h.whole]
  · rw [Part.tile_append, htext, ← hrest, hdialect, Nat.zero_add, ← h.position]
    exact ⟨h.tile, .token hstart (hstart ▸ hstop) hne (hdialect ▸ hspells), trivial⟩
  · rw [Part.texts_append, htext, Part.byteLength_append, hposition, hstop, hstart, h.position]
  · rw [List.foldl_append, hfresh]
    rfl
  · intro hk
    rw [hcomments, Part.commentsFrom_append, h.comments (hkeep ▸ hk)]
    simp [commentsFrom]

/-- A slash that can be read again is spelled by a slash, and its text goes on behind it. -/
theorem slash_slice {d : Dialect} {slice after : List Char} (h : slash.Spells d slice after)
    (hslash : slash.isSlash = true) : slice ++ after = '/' :: slash.reopen after := by
  have htags : isSlashTags slash.tag slash.datum = true := hslash
  cases h with
  | literal htag hdatum htext => rcases htag with h | h | h <;> simp [isSlashTags, h] at htags
  | name name htag => simp [isSlashTags, htag] at htags
  | keyword hk htext =>
    have hkeyword : WordSym _ _ false _ := .keyword hk rfl
    have hword := hkeyword.tags.2.2
    exact absurd (htags.symm.trans hword) (by simp)
  | sign p hp hslice htag hdatum htext hmax =>
    rw [htag, hdatum] at htags
    rcases (sign_tags p hp).2.2 htags with ⟨hdiv, hspelling⟩ | ⟨hassign, hspelling⟩
    · rw [hslice, hspelling, Token.reopen, htag, hdiv]
      rfl
    · rw [hslice, hspelling, Token.reopen, htag, hassign]
      rfl

/-- Before its last token the tiling was the same. -/
theorem Reached.back {slice : List Char} (h : Reached source (parts ++ [.token slash slice]) lx) :
    Reached source parts { lx with
      rest := slice ++ lx.rest, position := slash.start,
      fresh := parts.foldl Part.freshAfter true }
    ∧ slash.Spells lx.dialect slice lx.rest := by
  have htext : texts [.token slash slice] = slice := by simp [texts, Part.text]
  obtain ⟨htile, hfits, -⟩ := Part.tile_append.mp h.tile
  rw [htext] at htile
  cases hfits with
  | token hstart hstop hne hspells =>
    refine ⟨⟨?_, htile, ?_, rfl, fun hkeep => ?_⟩, hspells⟩
    · rw [← h.whole, Part.texts_append, htext, List.append_assoc]
    · rw [hstart, Nat.zero_add]
    · have hcomments := h.comments hkeep
      simpa [Part.commentsFrom_append, commentsFrom] using hcomments

/-- Reading the last slash again as a regular expression keeps the tiling. -/
theorem Reached.rescan {slice : List Char} (h : Reached source (parts ++ [.token slash slice]) lx)
    (hslash : slash.isSlash = true) (hr : lx.rescan slash = (.ok t, lx')) :
    ∃ slice, Reached source (parts ++ [.token t slice]) lx' := by
  obtain ⟨hback, hspells⟩ := h.back
  obtain ⟨taken, hsplit, htag, hdatum, htext, hstart, hstop, hposition, hfresh, hcomments, hlike⟩ :=
    rescan_inv hr
  have hslice := slash_slice hspells hslash
  rw [hsplit] at hslice
  have hslashSize : Char.utf8Size '/' = 1 := rfl
  refine ⟨'/' :: taken, hback.token hslice (by simp) hstart ?_ ?_ hstop.symm ?_ hcomments hlike⟩
  · rw [hstop, hposition, hstart]
    simp only [Text.byteLength, List.foldr_cons, hslashSize]
    omega
  · exact .literal (Or.inr (Or.inr htag)) hdatum htext
  · rw [hfresh, h.fresh, List.foldl_append]
    rfl

/-- A run reads the tokens of parts that tile what it has taken of the source. -/
theorem Run.reached {start : Lexer} {tokens : List Token} (hfresh : start.fresh = true)
    (hposition : start.position = 0) (hcomments : start.comments = [])
    (h : Run start tokens lx) :
    ∃ parts, Reached start.rest parts lx ∧ lx.Like start
      ∧ parts.filterMap Part.token? = tokens
      ∧ ∀ t ∈ tokens.getLast?, ∃ before slice, parts = before ++ [.token t slice] := by
  induction h with
  | begin =>
    refine ⟨[], ⟨rfl, trivial, hposition, hfresh, fun _ => ?_⟩, ⟨rfl, rfl⟩, rfl, by simp⟩
    rw [hcomments]
    rfl
  | next hrun hnext htag ih =>
    obtain ⟨parts, hreached, hlike, htokens, -⟩ := ih
    obtain ⟨gap, hgap, hu, hstart, hcase⟩ := next_inv hnext
    subst hgap
    obtain ⟨-, heoi, -⟩ | ⟨c, l, hc, hl, hof, hstop, rfl⟩ := hcase
    · exact absurd heoi htag
    have hpass := hreached.pass hu
    rw [hof] at hl
    obtain ⟨hsplit, hne, -⟩ := lexeme_ok hc hl
    refine ⟨_, hpass.token hsplit hne hstart hstop (spells_of_lexeme hc hl) ?_ rfl rfl ⟨rfl, rfl⟩,
      hlike, ?_, ?_⟩
    · rw [hstop, hstart]
      rfl
    · simp [Gap.parts, htokens, Part.token?, List.filterMap_map, Function.comp_def]
    · intro t ht
      obtain rfl : _ = t := by simpa using ht
      exact ⟨_, _, rfl⟩
  | rescan hrun hslash hr ih =>
    obtain ⟨parts, hreached, hlike, htokens, hlast⟩ := ih
    obtain ⟨before, slice, rfl⟩ := hlast _ List.getLast?_concat
    obtain ⟨slice', hreached'⟩ := hreached.rescan hslash hr
    obtain ⟨-, -, -, -, -, -, -, -, -, -, hkeeps⟩ := rescan_inv hr
    refine ⟨_, hreached', ⟨hkeeps.1.trans hlike.1, hkeeps.2.trans hlike.2⟩, ?_, ?_⟩
    · simp only [List.filterMap_append, List.filterMap_cons, Part.token?, List.filterMap_nil] at htokens ⊢
      rw [(List.append_inj' htokens rfl).1]
    · intro t ht
      obtain rfl : _ = t := by simpa using ht
      exact ⟨_, _, rfl⟩

end Lexer

/-! ## Places of tokens and comments -/

namespace Part

/-- The characters of a source between two byte offsets, and those after them. -/
def Between (source : List Char) (start stop : Nat) (slice after : List Char) : Prop :=
  ∃ before, source = before ++ slice ++ after ∧ start = Text.byteLength before
    ∧ stop = Text.byteLength (before ++ slice)

theorem commentsFrom_between {offset : Nat} {parts : List Part} :
    ∀ c ∈ commentsFrom offset parts, ∃ before after, texts parts = before ++ c.2.2 ++ after
      ∧ c.1 = offset + Text.byteLength before
      ∧ c.2.1 = offset + Text.byteLength (before ++ c.2.2) := by
  induction parts generalizing offset with
  | nil => simp [commentsFrom]
  | cons part parts ih =>
    intro c hc
    have hlater : c ∈ commentsFrom (offset + Text.byteLength part.text) parts →
        ∃ before after, texts (part :: parts) = before ++ c.2.2 ++ after
          ∧ c.1 = offset + Text.byteLength before
          ∧ c.2.1 = offset + Text.byteLength (before ++ c.2.2) := fun hc => by
      obtain ⟨before, after, htexts, hstart, hstop⟩ := ih c hc
      refine ⟨part.text ++ before, after, ?_, ?_, ?_⟩
      · rw [texts_cons, htexts]
        simp only [List.append_assoc]
      · rw [hstart, byteLength_append, Nat.add_assoc]
      · rw [hstop, List.append_assoc, byteLength_append part.text, Nat.add_assoc]
    match part with
    | .trivia (.comment block text) =>
      rcases List.mem_cons.mp hc with rfl | hc
      · exact ⟨[], texts parts, rfl, rfl, rfl⟩
      · exact hlater hc
    | .trivia (.blanks text) | .token t slice => exact hlater hc

variable {d : Dialect} {fresh : Bool} {offset : Nat} {parts : List Part} {rest : List Char}

theorem tile_token (h : Tile d fresh offset parts rest) :
    ∀ t ∈ parts.filterMap token?, ∃ before slice after,
      texts parts ++ rest = before ++ slice ++ after ∧ t.start = offset + Text.byteLength before
      ∧ t.stop = t.start + Text.byteLength slice ∧ slice ≠ [] ∧ t.Spells d slice after := by
  intro t ht
  obtain ⟨part, hmem, hpart⟩ := List.mem_filterMap.mp ht
  obtain ⟨before, after, rfl⟩ := List.append_of_mem hmem
  obtain ⟨-, hfits, -⟩ := tile_append.mp h
  cases hfits with
  | blanks | block | line => cases hpart
  | @token t' slice hstart hstop hne hspells =>
    obtain rfl : t' = t := Option.some.inj hpart
    refine ⟨texts before, slice, texts after ++ rest, ?_, hstart, hstart ▸ hstop, hne, hspells⟩
    rw [texts_append, texts_cons]
    simp only [List.append_assoc, text]

theorem byteLength_pos {text : List Char} (h : text ≠ []) : 0 < Text.byteLength text := by
  cases text with
  | nil => exact absurd rfl h
  | cons c text => exact Nat.lt_add_right _ c.utf8Size_pos

/-- The tokens of a tiling stand one behind the other. -/
theorem tile_ordered (h : Tile d fresh offset parts rest) :
    (parts.filterMap token?).Pairwise fun a b => a.stop ≤ b.start := by
  induction parts generalizing fresh offset with
  | nil => exact List.Pairwise.nil
  | cons part parts ih =>
    obtain ⟨hfits, hrest⟩ := h
    cases hfits with
    | blanks | block | line => exact ih hrest
    | token hstart hstop hne hspells =>
      refine List.pairwise_cons.mpr ⟨fun t ht => ?_, ih hrest⟩
      obtain ⟨before, slice, after, -, hbegin, -⟩ := tile_token hrest t ht
      rw [hstop, hbegin]
      exact Nat.le_add_right _ _

end Part

namespace Lexer

open Part (Tile Between texts commentsFrom)

/-- The tokens of a run up to the end of a text, whichever slashes were read again: blanks,
comments and the tokens' own characters tile the text; the tokens stand between characters, take
at least one and follow each other, and each carries what it spells; the comments collected are
the comments of the tiling, with their characters and places. -/
theorem run_tiles {text : String} {d : Dialect} {line : Nat} {keep : Bool} {tokens : List Token}
    {eof : Token} {lx lx' : Lexer} (h : Run (Lexer.start text d line keep) tokens lx)
    (hend : lx.next = (.ok eof, lx')) (heof : eof.tag = .endOfInput) :
    ∃ parts, texts parts = text.toList ∧ Tile d true 0 parts []
      ∧ parts.filterMap Part.token? = tokens
      ∧ (∀ t ∈ tokens, t.start < t.stop
        ∧ ∃ slice after, Between text.toList t.start t.stop slice after ∧ t.Spells d slice after)
      ∧ tokens.Pairwise (fun a b => a.stop ≤ b.start)
      ∧ eof.start = Text.byteLength text.toList ∧ eof.stop = eof.start
      ∧ (keep = true →
        lx'.comments.map (fun c => (c.start, c.stop, c.text.toList)) = commentsFrom 0 parts
        ∧ ∀ c ∈ lx'.comments, ∃ after,
          Between text.toList c.start c.stop c.text.toList after) := by
  obtain ⟨parts, hreached, hlike, htokens, -⟩ := h.reached rfl rfl rfl
  obtain ⟨gap, hgap, hu, hstart, hcase⟩ := next_inv hend
  subst hgap
  have hpass := hreached.pass hu
  obtain ⟨hrest, -, hstop, rfl⟩ | ⟨c, l, hc, hl, hof, -⟩ := hcase
  · have hwhole := hpass.whole
    have htile := hpass.tile
    have hpassrest : (lx.pass (Gap.scanFrom (.between lx.fresh) lx.rest)).rest = [] := hrest
    rw [hpassrest] at hwhole htile
    rw [List.append_nil] at hwhole
    have hall : (parts ++ (Gap.scanFrom (.between lx.fresh) lx.rest).parts).filterMap Part.token?
        = tokens := by
      simp [Gap.parts, htokens, Part.token?, List.filterMap_map, Function.comp_def]
    have hposition := hpass.position
    have hcomments := hpass.comments
    generalize parts ++ (Gap.scanFrom (.between lx.fresh) lx.rest).parts = parts at *
    rw [show (lx.pass _).dialect = d from hlike.1] at htile
    refine ⟨parts, hwhole, htile, hall, ?_, ?_, ?_, hstop, fun hkeep => ?_⟩
    · intro t ht
      obtain ⟨before, slice, after, hsplit, hbegin, hend, hne, hspells⟩ :=
        Part.tile_token htile t (hall ▸ ht)
      have hpos := Part.byteLength_pos hne
      rw [List.append_nil, hwhole] at hsplit
      rw [Nat.zero_add] at hbegin
      refine ⟨by omega, slice, after, ⟨before, hsplit, hbegin, ?_⟩, hspells⟩
      rw [hend, hbegin, Part.byteLength_append]
    · exact hall ▸ Part.tile_ordered htile
    · rw [hstart, hposition, hwhole]
      rfl
    · have hmap := hcomments (hlike.2.trans hkeep)
      refine ⟨hmap, fun c hc => ?_⟩
      obtain ⟨before, after, hsplit, hbegin, hend⟩ := Part.commentsFrom_between _
        (hmap ▸ List.mem_map_of_mem hc)
      rw [hwhole] at hsplit
      rw [Nat.zero_add] at hbegin hend
      exact ⟨after, before, hsplit, hbegin, hend⟩
  · rw [hof] at hl
    exact absurd heof (lexeme_kind hc hl).tags.2.1

/-- A run that reads `/=` as an operator and then again as a regular expression. -/
theorem run_tiles_pattern : ∃ (tokens : List Token) (parts : List Part),
    tokens.map Token.text = [none, some "/=a/"] ∧ parts.filterMap Part.token? = tokens
      ∧ texts parts = "= /=a/ // c".toList ∧ Tile .v13 true 0 parts [] := by
  have hrun : Run (Lexer.start "= /=a/ // c" .v13 1 true) _ _ :=
    .rescan (.next (.next .begin rfl (by decide)) rfl (by decide)) (by decide) rfl
  obtain ⟨parts, htexts, htile, htokens, -⟩ := run_tiles hrun rfl rfl
  exact ⟨_, parts, rfl, htokens, htexts, htile⟩

end Lexer
end ScriptPress
