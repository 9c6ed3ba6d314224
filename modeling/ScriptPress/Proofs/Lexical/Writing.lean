import ScriptPress.Proofs.Lexical.Words
import ScriptPress.Render.Statement

/-! # Written text feeds its words

The text that instructions make feeds the grammar the words of the instructions. The invariant
follows the writer from the left: whatever is still to be written, in any form that only differs
in the line feeds at its end, feeds the words still to come, and does not glue to the last token.
-/
namespace ScriptPress.Writer

/-- A text in its final form: the same up to the number of line feeds at its end, of which there
are some or none in both. -/
def Trims (text final : List Char) : Prop :=
  ∃ body m n, text = body ++ List.replicate m '\n' ∧ final = body ++ List.replicate n '\n'
    ∧ (m = 0 ↔ n = 0)

theorem Trims.refl (text : List Char) : Trims text text :=
  ⟨text, 0, 0, by simp, by simp, Iff.rfl⟩

/-- What ends in something else than a line feed stays. -/
theorem Trims.of_append {head text final : List Char} (h : Trims (head ++ text) final)
    (hlast : head.getLast? ≠ some '\n') : ∃ rest, final = head ++ rest ∧ Trims text rest := by
  obtain ⟨body, m, n, htext, rfl, hmn⟩ := h
  obtain ⟨more, hbody, hmore⟩ | ⟨more, hhead, hmore⟩ := List.append_eq_append_iff.mp htext
  · exact ⟨more ++ List.replicate n '\n', by simp [hbody], more, m, n, hmore, rfl, hmn⟩
  · have hnil : more = [] := by
      cases hl : more.getLast? with
      | none => simpa using hl
      | some c =>
        have hc : c ∈ List.replicate m '\n' := by
          rw [hmore]
          exact List.mem_append_left _ (List.mem_of_getLast? hl)
        rw [hhead, List.getLast?_append, hl, (List.mem_replicate.mp hc).2] at hlast
        exact absurd rfl hlast
    subst hnil
    rw [List.append_nil] at hhead
    subst hhead
    exact ⟨List.replicate n '\n', rfl, [], m, n, by simpa using hmore.symm, rfl, hmn⟩

variable {d : Dialect} {fresh : Bool} {ws : List Word} {tail : List String}

theorem scanFrom_replicate (n : Nat) (fresh : Bool) :
    ∃ pieces, Gap.scanFrom (.between fresh) (List.replicate n '\n') = ⟨pieces, none, []⟩
      ∧ Gap.kept true pieces = [] := by
  have hspace : Lexer.isSpace '\n' = true := by decide
  induction n generalizing fresh with
  | zero => exact ⟨[], rfl, by simp [Gap.kept]⟩
  | succ n ih =>
    obtain ⟨pieces, hscan, hkept⟩ := ih (fresh || Text.isLineBreak '\n')
    refine ⟨(Gap.consBlank '\n' ⟨pieces, none, []⟩).pieces, ?_, by simpa using hkept⟩
    rw [List.replicate_succ, Gap.scanFrom_space hspace, hscan]
    unfold Gap.consBlank
    split <;> rfl

/-- Line feeds alone feed nothing. -/
theorem feeds_replicate (n : Nat) :
    Feeds d fresh (List.replicate n '\n') ws tail ↔ ws = [] ∧ tail = [] := by
  obtain ⟨pieces, hscan, hkept⟩ := scanFrom_replicate n fresh
  constructor
  · intro h
    cases h with
    | finish hs =>
      rw [hscan, Gap.mk.injEq] at hs
      exact ⟨rfl, by rw [← hs.1, hkept]⟩
    | word hs hc =>
      rw [hscan, Gap.mk.injEq] at hs
      obtain ⟨rfl, -⟩ := List.append_eq_nil_iff.mp hs.2.2.symm
      cases hc
    | pattern hs =>
      rw [hscan, Gap.mk.injEq] at hs
      cases hs.2.2
  · rintro ⟨rfl, rfl⟩
    rw [← hkept]
    exact Feeds.finish hscan

/-! ## Still to be written -/

/-- Whether the text so far ends with the last token. -/
def Touches (w : Writer) : Prop := w.atLineStart = false ∧ w.lastChar ≠ none ∧ w.lastChar ≠ some ' '

/-- The writer remembers a token as its last one. -/
structure Marks (w : Writer) (t : Written) : Prop where
  lastChar : w.lastChar = t.text.getLast?
  regExp : t.kind = .regExp → w.afterRegExp = true
  number : t.kind = .number → t.text.getLast? = some '.' → w.afterOpenNumber = true
  dashes : t.text = ['-', '-'] → w.charBefore = some '-'

/-- What is still to be written, up to the finished characters, feeds some words and comments and
does not glue to the last token. -/
def Ahead (d : Dialect) (w : Writer) (last : Option Written) (done : List Char)
    (ws : List Word) (tail : List String) : Prop :=
  ∃ text, done = text.reverse ++ w.written ∧ ∀ final, Trims text final →
    Feeds d w.atLineStart final ws tail
      ∧ (w.Touches → ∀ t ∈ last, ∀ c ∈ final.head?, t.glues c = false)

variable {w w' : Writer} {last last' : Option Written} {done : List Char}

theorem Ahead.same (h : Ahead d w' last done ws tail) (hw : w'.written = w.written)
    (hl : w'.atLineStart = w.atLineStart) (ht : w.Touches → w'.Touches) :
    Ahead d w last done ws tail := by
  obtain ⟨text, htext, hall⟩ := h
  refine ⟨text, by rw [htext, hw], fun final hf => ?_⟩
  obtain ⟨hfeeds, hglue⟩ := hall final hf
  exact ⟨hl ▸ hfeeds, fun h => hglue (ht h)⟩

/-- A line feed is about to be written. -/
theorem Ahead.lineFeed_final (h : Ahead d w' last' done ws tail)
    (hw : w'.written = '\n' :: w.written) (hl : w'.atLineStart = true) :
    ∃ text, done = text.reverse ++ w.written ∧ ∀ final, Trims text final →
      ∃ rest, final = '\n' :: rest ∧ Feeds d true rest ws tail := by
  obtain ⟨text, htext, hall⟩ := h
  refine ⟨'\n' :: text, by simp [htext, hw], fun final hf => ?_⟩
  rw [hl] at hall
  obtain ⟨body, m, n, hbody, rfl, hmn⟩ := hf
  cases body with
  | cons c body =>
    obtain ⟨rfl, rfl⟩ : '\n' = c ∧ text = body ++ List.replicate m '\n' := by simpa using hbody
    exact ⟨_, rfl, (hall _ ⟨body, m, n, rfl, rfl, hmn⟩).1⟩
  | nil =>
    cases m with
    | zero => cases hbody
    | succ m =>
      obtain rfl : text = List.replicate m '\n' := by
        simpa [List.replicate_succ] using hbody
      obtain ⟨rfl, rfl⟩ := (feeds_replicate m).mp (hall _ (Trims.refl _)).1
      cases n with
      | zero => simp at hmn
      | succ n => exact ⟨List.replicate n '\n', rfl, (feeds_replicate n).mpr ⟨rfl, rfl⟩⟩

theorem isSpace_loose : ∀ c ∈ [' ', '\t', '\n'], Lexer.isSpace c = true :=
  Literal.forall_chars (by decide)

theorem Ahead.lineFeed (h : Ahead d w' last' done ws tail)
    (hw : w'.written = '\n' :: w.written) (hl : w'.atLineStart = true)
    (hb : ∀ w ∈ ws.head?, w.lead.breaks = true) (hlast : ∀ t ∈ last, t.Genuine d) :
    Ahead d w last done ws tail := by
  obtain ⟨text, htext, hall⟩ := h.lineFeed_final hw hl
  refine ⟨text, htext, fun final hf => ?_⟩
  obtain ⟨rest, rfl, hrest⟩ := hall final hf
  have hbreak : (w.atLineStart || Text.isLineBreak '\n') = true := Bool.or_true _
  refine ⟨Feeds.space (isSpace_loose _ (by simp)) (hbreak ▸ hrest) fun _ => hb, fun _ t ht c hc => ?_⟩
  obtain rfl : '\n' = c := by simpa using hc
  exact (hlast t ht).glues_loose (by decide)

/-- A text that does not end with a line feed is about to be written. -/
theorem Ahead.append_final (head : List Char) (h : Ahead d w' last' done ws tail)
    (hw : w'.written = head.reverse ++ w.written) (hhead : head.getLast? ≠ some '\n') :
    ∃ text, done = text.reverse ++ w.written ∧ ∀ final, Trims text final →
      ∃ rest, final = head ++ rest ∧ Feeds d w'.atLineStart rest ws tail
        ∧ (w'.Touches → ∀ t ∈ last', ∀ c ∈ rest.head?, t.glues c = false) := by
  obtain ⟨text, htext, hall⟩ := h
  refine ⟨head ++ text, by simp [htext, hw], fun final hf => ?_⟩
  obtain ⟨rest, rfl, hrest⟩ := hf.of_append hhead
  exact ⟨rest, rfl, hall rest hrest⟩

/-- Blanks in front of a text. -/
theorem feeds_blanks {blanks text : List Char} (hblanks : ∀ c ∈ blanks, c = ' ' ∨ c = '\t')
    (h : Feeds d fresh text ws tail) : Feeds d fresh (blanks ++ text) ws tail := by
  induction blanks with
  | nil => exact h
  | cons c blanks ih =>
    have hrest := ih fun c hc => hblanks c (by simp [hc])
    have hbreak : Text.isLineBreak c = false := by
      rcases hblanks c (by simp) with rfl | rfl <;> rfl
    refine Feeds.space ?_ (by rwa [hbreak, Bool.or_false]) (by simp [hbreak])
    rcases hblanks c (by simp) with rfl | rfl
    · exact isSpace_loose _ (by simp)
    · exact isSpace_loose _ (by simp)

theorem indentation_blank (layout : Layout) (column : Nat) :
    ∀ c ∈ layout.indentation column, c = ' ' ∨ c = '\t' := by
  intro c hc
  unfold Layout.indentation at hc
  split at hc
  · rcases List.mem_append.mp hc with hc | hc
    · exact Or.inr (List.mem_replicate.mp hc).2
    · exact Or.inl (List.mem_replicate.mp hc).2
  · exact Or.inl (List.mem_replicate.mp hc).2

theorem Ahead.blank (h : Ahead d w' last' done ws tail)
    (hw : w'.written = ' ' :: w.written) (hl : w'.atLineStart = w.atLineStart)
    (hlast : ∀ t ∈ last, t.Genuine d) : Ahead d w last done ws tail := by
  obtain ⟨text, htext, hall⟩ := h.append_final [' '] hw (by decide)
  refine ⟨text, htext, fun final hf => ?_⟩
  obtain ⟨rest, rfl, hrest, -⟩ := hall final hf
  rw [hl] at hrest
  refine ⟨feeds_blanks (by simp) hrest, fun _ t ht c hc => ?_⟩
  obtain rfl : ' ' = c := by simpa using hc
  exact (hlast t ht).glues_loose (by decide)

/-! ## Tokens -/

/-- Writes a token, after any semicolon that was owed. -/
def put (w : Writer) (t : Written) (first : Char) : Writer :=
  { (w.separate first).raw t.text with
    afterRegExp := t.kind == .regExp
    afterOpenNumber := t.kind == .number && t.text.getLast? == some '.' }

theorem fuses_mono {before : Option Char} {a b : Char} (h : fuses none a b = true) :
    fuses before a b = true := by
  unfold fuses at h ⊢
  split at h <;> simp_all

theorem needsSpace_of_parts {t : Written} {c : Char} (ht : t.Genuine d) (hm : w.Marks t)
    (hp : t.parts c = true) : w.needsSpace c = true := by
  cases hlast : t.text.getLast? with
  | none => exact absurd (List.getLast?_eq_none_iff.mp hlast) ht.ne_nil
  | some last =>
    have hspace := ht.last_not_space last hlast
    have hblank : (last == ' ' || last == '\n') = false := by
      rw [Bool.or_eq_false_iff, beq_eq_false_iff_ne, beq_eq_false_iff_ne]
      constructor
      · rintro rfl
        simp [isSpace_loose ' ' (by simp)] at hspace
      · rintro rfl
        simp [isSpace_loose '\n' (by simp)] at hspace
    have hchar : w.lastChar = some last := by rw [hm.lastChar, hlast]
    simp only [Written.parts, hlast, Option.any_some, Bool.or_eq_true, Bool.and_eq_true,
      beq_iff_eq] at hp
    simp only [needsSpace, hchar, hblank, Bool.false_eq_true, if_false, Bool.or_eq_true,
      Bool.and_eq_true]
    rcases hp with ⟨hword, (h | h) | ⟨h, hdot⟩⟩ | hfuse
    · exact Or.inl ⟨hword, Or.inl (Or.inl h)⟩
    · exact Or.inl ⟨hword, Or.inl (Or.inr (hm.regExp h))⟩
    · exact Or.inl ⟨hword, Or.inr (hm.number h (by rw [hlast, hdot]))⟩
    · right
      split at hfuse
      · next hd => rwa [hm.dashes hd]
      · exact fuses_mono hfuse

theorem marks_put (t : Written) (first : Char) : (w.put t first).Marks t where
  lastChar := by simp only [put, raw, List.head?_reverse]
  regExp hk := by simp [put, hk]
  number hk hdot := by simp [put, hk, hdot]
  dashes h := by simp [put, raw, h]

theorem touches_put {t : Written} {first : Char} (ht : t.Genuine d) : (w.put t first).Touches := by
  refine ⟨rfl, ?_, ?_⟩
  · rw [(marks_put t first).lastChar, ne_eq, List.getLast?_eq_none_iff]
    exact ht.ne_nil
  · rw [(marks_put t first).lastChar]
    intro hlast
    have := ht.last_not_space ' ' hlast
    simp [isSpace_loose ' ' (by simp)] at this

/-- A token is about to be written, kept apart from the last one if they need it. -/
theorem Ahead.token {t : Written} {first : Char} {b : Bool}
    (h : Ahead d (w.put t first) (some t) done ws tail) (hfirst : t.text.head? = some first)
    (ht : t.Genuine d)
    (hlast : ∀ k ∈ last, k.Genuine d ∧ (w.Touches → w.Marks k ∧ k.Meets t.text)) :
    Ahead d w last done (⟨t.sym d, b⟩ :: ws) tail := by
  have hend : t.text.getLast? ≠ some '\n' := by
    intro hn
    have := ht.last_not_space _ hn
    simp [isSpace_loose '\n' (by simp)] at this
  obtain ⟨sep, hsep, hblank, hglue⟩ : ∃ sep, (w.separate first).written = sep.reverse ++ w.written
      ∧ (∀ c ∈ sep, c = ' ' ∨ c = '\t')
      ∧ (w.Touches → sep = [] → w.needsSpace first = false) := by
    unfold separate
    split
    · next hline =>
      refine ⟨w.layout.indentation w.column, rfl, indentation_blank _ _, fun htouch _ => ?_⟩
      simp [htouch.1] at hline
    · split
      · exact ⟨[' '], rfl, by simp, by simp⟩
      · next hneed => exact ⟨[], rfl, by simp, fun _ _ => by simpa using hneed⟩
  have hwritten : (w.put t first).written = (sep ++ t.text).reverse ++ w.written := by
    simp [put, raw, hsep]
  have hhead : (sep ++ t.text).getLast? ≠ some '\n' := by
    rw [List.getLast?_append]
    cases hlast : t.text.getLast? with
    | none => exact absurd (List.getLast?_eq_none_iff.mp hlast) ht.ne_nil
    | some c => simpa [hlast] using hend
  obtain ⟨text, htext, hall⟩ := h.append_final _ hwritten hhead
  refine ⟨text, htext, fun final hf => ?_⟩
  obtain ⟨rest, rfl, hrest, hnext⟩ := hall final hf
  have hfeeds : Feeds d w.atLineStart (t.text ++ rest) (⟨t.sym d, b⟩ :: ws) tail :=
    Feeds.written ht (hnext (touches_put ht) t rfl) hrest
  refine ⟨by rw [List.append_assoc]; exact feeds_blanks hblank hfeeds, fun htouch k hk c hc => ?_⟩
  obtain ⟨hgenuine, hmeets⟩ := hlast k hk
  obtain ⟨hmarks, hmeets⟩ := hmeets htouch
  cases sep with
  | cons s sep =>
    obtain rfl : s = c := by simpa using hc
    rcases hblank s (by simp) with rfl | rfl
    · exact hgenuine.glues_loose (by decide)
    · exact hgenuine.glues_loose (by decide)
  | nil =>
    rw [List.nil_append, List.head?_append, hfirst, Option.some_or, Option.mem_def,
      Option.some.injEq] at hc
    subst hc
    by_contra hg
    have hparts := hmeets first hfirst (by simpa using hg)
    have hneeds := needsSpace_of_parts hgenuine hmarks hparts
    rw [hglue htouch rfl] at hneeds
    cases hneeds

theorem semicolon_only : ∀ m ∈ Punctuator.table.map Punctuator.spelling ++ Lexer.commentMarks,
    m.head? = some ';' → m = [';'] := by
  decide

/-- Nothing glues to a semicolon. -/
theorem semicolon_glues (c : Char) : Written.semicolon.glues c = false := by
  have hopens : Lexer.opensNumber [';'] = false ∧ Lexer.opensWord [';'] = false
      ∧ Lexer.opensString [';'] = false := by decide
  have hsign : Lexer.signGoesOn [';'] c = false := by
    rw [Lexer.signGoesOn, Bool.or_eq_false_iff, List.any_eq_false]
    refine ⟨fun m hm hp => ?_, by simp⟩
    obtain ⟨rest, rfl⟩ := List.isPrefixOf_iff_prefix.mp hp
    have := semicolon_only _ hm rfl
    simp at this
  exact (Lexer.glues_sign hopens.1 hopens.2.1 hopens.2.2).trans hsign

theorem semicolon_genuine (d : Dialect) : Written.semicolon.Genuine d
    ∧ Written.semicolon.sym d = ⟨.semicolon, none, none⟩ := by
  have hp : ⟨[';'], .semicolon, none⟩ ∈ Punctuator.table := by decide
  have hlexeme : Lexer.IsLexeme d [';'] ⟨.semicolon, none, none⟩ := Lexer.isLexeme_sign hp rfl
  have hsym : classify d [';'] = ⟨.semicolon, none, none⟩ := classify_of hlexeme
  refine ⟨?_, hsym⟩
  change Lexer.IsLexeme d [';'] (classify d [';'])
  rwa [hsym]

/-- A semicolon that was owed is about to be written, right behind the last token. -/
theorem Ahead.semicolon {b : Bool} (hw : w'.written = ';' :: w.written) (ht : w'.Touches)
    (h : Ahead d w' (some .semicolon) done ws tail) (hlast : ∀ t ∈ last, t.Genuine d) :
    Ahead d w last done (⟨⟨.semicolon, none, none⟩, b⟩ :: ws) tail := by
  obtain ⟨hgenuine, hsym⟩ := semicolon_genuine d
  obtain ⟨text, htext, hall⟩ := h.append_final [';'] hw (by decide)
  refine ⟨text, htext, fun final hf => ?_⟩
  obtain ⟨rest, rfl, hrest, hglue⟩ := hall final hf
  rw [ht.1] at hrest
  refine ⟨?_, fun _ t ht c hc => ?_⟩
  · rw [← hsym]
    exact Feeds.written hgenuine (hglue ht _ rfl) hrest
  · obtain rfl : ';' = c := by simpa using hc
    exact (hlast t ht).glues_loose (by decide)

/-! ## Comments -/

theorem Ahead.untouched (ht : ¬w.Touches) (h : Ahead d w last' done ws tail) :
    Ahead d w last done ws tail := by
  obtain ⟨text, htext, hall⟩ := h
  exact ⟨text, htext, fun final hf => ⟨(hall final hf).1, fun h => absurd h ht⟩⟩

/-- The line is about to end. -/
theorem Ahead.newline (h : Ahead d w.newline last done ws tail)
    (hb : ∀ w ∈ ws.head?, w.lead.breaks = true) (hlast : ∀ t ∈ last, t.Genuine d) :
    Ahead d w last done ws tail := by
  unfold Writer.newline at h
  split at h
  · exact h
  · exact h.lineFeed rfl rfl hb hlast

theorem newline_lineStart (h : w.compact = false) : w.newline.atLineStart = true := by
  unfold Writer.newline
  split
  · next hline => simpa [h] using hline
  · rfl

theorem newline_compact : w.newline.compact = w.compact := by
  unfold Writer.newline
  split <;> rfl

/-- A comment is about to be written, on a line of its own. -/
theorem Ahead.comment {text : String} (hc : w.compact = false)
    (h : Ahead d (w.comment text) last' done ws tail) (ht : Gap.IsComment text.toList)
    (hb : ∀ w ∈ ws.head?, w.lead.breaks = true) (hlast : ∀ t ∈ last, t.Genuine d) :
    Ahead d w last done (remarked [text] ws) (remarkedTail [text] ws tail) := by
  have hline := newline_lineStart hc
  have hcompact : w.newline.compact = false := newline_compact.trans hc
  have hbreaks : ∀ w ∈ (remarked [text] ws).head?, w.lead.breaks = true := by
    cases ws with
    | nil => exact hb
    | cons w ws => simpa [remarked, Lead.remarked] using hb
  refine Ahead.newline ?_ hbreaks hlast
  refine Ahead.untouched (fun h => by simp [h.1] at hline) (?_ : Ahead d _ none _ _ _)
  generalize hw : w.newline = w₁ at *
  have hwritten : w.comment text = (w₁.writeIndent.raw text.toList).newline := by
    rw [Writer.comment, if_neg (by simp [hc]), hw]
  have hfeed : (w₁.writeIndent.raw text.toList).newline.written
      = '\n' :: (w₁.writeIndent.raw text.toList).written := by
    rw [Writer.newline, if_neg]
    · rfl
    · simp [raw, writeIndent, push, hcompact]
  have hstart : (w₁.writeIndent.raw text.toList).newline.atLineStart = true :=
    newline_lineStart (by simpa [raw, writeIndent, push] using hcompact)
  rw [hwritten] at h
  obtain ⟨rest, hrest, hall⟩ := h.lineFeed_final hfeed hstart
  refine ⟨w₁.layout.indentation w₁.column ++ text.toList ++ rest, ?_, fun final hf => ⟨?_, ?_⟩⟩
  · rw [hrest]
    simp [raw, writeIndent, push]
  · have hlast : (w₁.layout.indentation w₁.column ++ text.toList).getLast? ≠ some '\n' := by
      rw [List.getLast?_append]
      cases hl : text.toList.getLast? with
      | none =>
        obtain ⟨-, block, hscan⟩ := ht
        have hnil : text.toList = [] := List.getLast?_eq_none_iff.mp hl
        have := congrArg (fun g => g.pieces.length) (hscan [])
        simp [hnil, Gap.cons] at this
      | some c =>
        have := ht.1
        rw [hl] at this
        simpa using this
    obtain ⟨final', rfl, hf'⟩ := hf.of_append hlast
    obtain ⟨after, rfl, hafter⟩ := hall final' hf'
    rw [hline, List.append_assoc]
    refine feeds_blanks (indentation_blank _ _) ?_
    have hspace : Feeds d true ('\n' :: after) ws tail :=
      Feeds.space (isSpace_loose _ (by simp)) (by simpa using hafter) fun _ => hb
    simpa using Feeds.comment ht hspace hb
  · intro htouch
    simp [htouch.1] at hline

/-! ## Instructions -/

theorem words_breaks {compact owes : Bool} {lead : Lead} (hlead : lead.breaks = true)
    {steps : List WriterStep} :
    ∀ w ∈ (words compact d lead owes steps).head?, w.lead.breaks = true := by
  induction steps generalizing lead owes with
  | nil => simp [words]
  | cons step more ih =>
    cases step with
    | token text | number text | regExp text | hardSemicolon =>
      simp only [words, WriterStep.written?, owed]
      split <;> simp [hlead]
    | semicolon =>
      simp only [words, WriterStep.written?]
      split
      · exact ih hlead
      · simp [hlead]
    | comment text | newline | blankLine => exact ih rfl
    | space | indent | outdent | setBackLine | missing => exact ih hlead

/-- What is known of the last token when instructions are about to be followed: the writer
remembers it, and it meets what comes next or anything. -/
structure Ready (d : Dialect) (w : Writer) (last phys : Option Written) (ended : Bool) : Prop where
  genuine : ∀ k ∈ phys, k.Genuine d
  marks : w.Touches → ∀ k ∈ phys, w.Marks k
  owes : w.owesSemicolon = true → w.compact = true ∧ ended = true
  meets : w.owesSemicolon = false → w.Touches → ∀ k ∈ phys, last = some k ∨ ∀ text, k.Meets text

theorem token_eq {text : String} {first : Char} (h : text.toList.head? = some first) :
    w.token text = (w.settle text.toList).put ⟨.plain, text.toList⟩ first := by
  cases htext : text.toList with
  | nil => simp [htext] at h
  | cons c rest =>
    obtain rfl : c = first := by simpa [htext] using h
    simp only [token, htext]
    rfl

theorem step_written {step : WriterStep} {t : Written} {first : Char}
    (hs : step.written? = some t) (hfirst : t.text.head? = some first) :
    w.step step = (w.settle t.text).put t first := by
  cases step with
  | token text =>
    obtain rfl : _ = t := Option.some.inj hs
    exact token_eq hfirst
  | number text | regExp text =>
    obtain rfl : _ = t := Option.some.inj hs
    simp only [Writer.step, number, regExp, token_eq hfirst]
    rfl
  | hardSemicolon =>
    obtain rfl : _ = t := Option.some.inj hs
    obtain rfl : ';' = first := by simpa using hfirst
    rfl
  | _ => cases hs

/-- A token of instructions. -/
theorem Ahead.written {step : WriterStep} {t : Written} {phys : Option Written} {ended b : Bool}
    (hs : step.written? = some t) (hready : Ready d w last phys ended) (ht : t.Genuine d)
    (hmeets : ∀ k ∈ last, k.Genuine d → k.Meets t.text)
    (h : Ahead d (w.step step) (some t) done ws tail) :
    Ahead d w phys done (owed w.owesSemicolon t b ++ ⟨t.sym d, b⟩ :: ws) tail := by
  obtain ⟨first, hfirst⟩ : ∃ first, t.text.head? = some first := by
    cases htext : t.text with
    | nil => exact absurd htext ht.ne_nil
    | cons c rest => exact ⟨c, rfl⟩
  rw [step_written hs hfirst] at h
  cases howes : w.owesSemicolon with
  | false =>
    have hsettle : w.settle t.text = w := by rw [settle, if_neg (by simp [howes])]
    rw [hsettle] at h
    refine h.token hfirst ht fun k hk => ⟨hready.genuine k hk, fun htouch => ?_⟩
    refine ⟨hready.marks htouch k hk, ?_⟩
    have hgenuine := hready.genuine k hk
    exact (hready.meets howes htouch k hk).elim (fun h => hmeets k h hgenuine) fun h => h _
  | true =>
    by_cases hbrace : t.text = ['\x7d']
    · have hsettle : w.settle t.text = { w with owesSemicolon := false } := by
        rw [settle, if_pos howes, if_pos (by simp [hbrace])]
      rw [hsettle] at h
      have howed : owed true t b = [] := by simp [owed, hbrace]
      rw [howed]
      refine Ahead.same (h.token hfirst ht fun k hk => ⟨hready.genuine k hk, fun htouch => ?_⟩)
        rfl rfl id
      refine ⟨?_, fun c hc hg => ?_⟩
      · exact ⟨(hready.marks htouch k hk).lastChar, (hready.marks htouch k hk).regExp,
          (hready.marks htouch k hk).number, (hready.marks htouch k hk).dashes⟩
      · obtain rfl : '\x7d' = c := by simpa [hbrace] using hc
        rw [(hready.genuine k hk).glues_loose (by decide)] at hg
        cases hg
    · have hsettle : w.settle t.text = { w with owesSemicolon := false }.raw [';'] := by
        rw [settle, if_pos howes, if_neg (by simpa using hbrace)]
      rw [hsettle] at h
      have howed : owed true t b = [⟨⟨.semicolon, none, none⟩, b⟩] := by simp [owed, hbrace]
      rw [howed]
      obtain ⟨hgenuine, -⟩ := semicolon_genuine d
      refine Ahead.semicolon rfl ⟨rfl, by simp [raw], by simp [raw]⟩
        (h.token hfirst ht fun k hk => ?_) hready.genuine
      obtain rfl : Written.semicolon = k := by simpa using hk
      refine ⟨hgenuine, fun _ => ⟨⟨rfl, by simp [Written.semicolon], by simp [Written.semicolon],
        by simp [Written.semicolon]⟩, fun c _ hg => ?_⟩⟩
      rw [semicolon_glues] at hg
      cases hg

theorem put_kept (w : Writer) (t : Written) (first : Char) :
    (w.put t first).owesSemicolon = w.owesSemicolon ∧ (w.put t first).compact = w.compact := by
  simp only [put, raw]
  unfold separate writeIndent push
  split
  · exact ⟨rfl, rfl⟩
  · split <;> exact ⟨rfl, rfl⟩

theorem settle_kept (w : Writer) (next : List Char) :
    (w.settle next).owesSemicolon = false ∧ (w.settle next).compact = w.compact := by
  unfold settle
  split
  · split <;> exact ⟨rfl, rfl⟩
  · next h => exact ⟨by simpa using h, rfl⟩

theorem ready_step {step : WriterStep} {t : Written} (hs : step.written? = some t)
    (ht : t.Genuine d) : Ready d (w.step step) (some t) (some t) false
      ∧ (w.step step).compact = w.compact ∧ (w.step step).owesSemicolon = false := by
  obtain ⟨first, hfirst⟩ : ∃ first, t.text.head? = some first := by
    cases htext : t.text with
    | nil => exact absurd htext ht.ne_nil
    | cons c rest => exact ⟨c, rfl⟩
  obtain ⟨howes, hcompact⟩ := settle_kept w t.text
  obtain ⟨howes', hcompact'⟩ := put_kept (w.settle t.text) t first
  rw [step_written hs hfirst]
  refine ⟨⟨?_, ?_, ?_, ?_⟩, hcompact'.trans hcompact, howes'.trans howes⟩
  · rintro k ⟨⟩
    exact ht
  · rintro - k ⟨⟩
    exact marks_put t first
  · simp [howes', howes]
  · exact fun _ _ k hk => Or.inl hk

/-- What changes neither the text nor the end of the line keeps the writer ready. -/
theorem Ready.same {phys : Option Written} {ended : Bool} (hready : Ready d w last phys ended)
    (hl : w'.lastChar = w.lastChar) (hr : w'.afterRegExp = w.afterRegExp)
    (hn : w'.afterOpenNumber = w.afterOpenNumber) (hb : w'.charBefore = w.charBefore)
    (ha : w'.atLineStart = w.atLineStart) (ho : w'.owesSemicolon = w.owesSemicolon)
    (hc : w'.compact = w.compact) : Ready d w' last phys ended := by
  have htouch : w'.Touches → w.Touches := fun ⟨h1, h2, h3⟩ => ⟨ha ▸ h1, hl ▸ h2, hl ▸ h3⟩
  refine ⟨hready.genuine, fun ht k hk => ?_, fun h => ?_, fun h ht => ?_⟩
  · have hm := hready.marks (htouch ht) k hk
    exact ⟨hl.trans hm.lastChar, fun h => hr.trans (hm.regExp h),
      fun h h' => hn.trans (hm.number h h'), fun h => hb.trans (hm.dashes h)⟩
  · rw [hc]
    exact hready.owes (ho ▸ h)
  · exact hready.meets (ho ▸ h) (htouch ht)

theorem ready_none {ended : Bool} (ht : ¬w.Touches)
    (howes : w.owesSemicolon = true → w.compact = true ∧ ended = true) :
    Ready d w last none ended :=
  ⟨by simp, fun _ => by simp, howes, fun _ h => absurd h ht⟩

theorem Ready.owing {phys : Option Written} {ended : Bool} (hready : Ready d w last phys ended)
    (hc : w.compact = true) : Ready d { w with owesSemicolon := true } none phys true := by
  refine ⟨hready.genuine, fun ht k hk => ?_, fun _ => ⟨hc, rfl⟩, by simp⟩
  obtain ⟨h1, h2, h3, h4⟩ := hready.marks ht k hk
  exact ⟨h1, h2, h3, h4⟩

/-- A semicolon that is written ends a statement. -/
theorem Ready.ended (hready : Ready d w (some .semicolon) (some .semicolon) false) :
    Ready d w none (some .semicolon) true := by
  refine ⟨hready.genuine, hready.marks, fun h => ⟨(hready.owes h).1, rfl⟩, fun _ _ k hk => ?_⟩
  obtain rfl : Written.semicolon = k := by simpa using hk
  refine Or.inr fun text c _ hg => ?_
  rw [semicolon_glues] at hg
  cases hg

theorem newline_owes : w.newline.owesSemicolon = w.owesSemicolon := by
  unfold Writer.newline
  split <;> rfl

theorem comment_kept {text : String} (hc : w.compact = false) :
    (w.comment text).atLineStart = true ∧ (w.comment text).compact = false
      ∧ (w.comment text).owesSemicolon = w.owesSemicolon := by
  have hcompact : (w.newline.writeIndent.raw text.toList).compact = false := by
    simpa [raw, writeIndent, push] using newline_compact.trans hc
  rw [Writer.comment, if_neg (by simp [hc])]
  refine ⟨newline_lineStart hcompact, newline_compact.trans hcompact, newline_owes.trans ?_⟩
  simpa [raw, writeIndent, push] using newline_owes

theorem newline_kept (hc : w.compact = false) : w.newline.atLineStart = true
    ∧ w.newline.owesSemicolon = w.owesSemicolon ∧ w.newline.compact = w.compact :=
  ⟨newline_lineStart hc, newline_owes, newline_compact⟩

theorem Ready.lineStart {phys : Option Written} {ended : Bool}
    (hready : Ready d w last phys ended) (hl : w'.atLineStart = true)
    (ho : w'.owesSemicolon = w.owesSemicolon) (hc : w'.compact = w.compact) :
    Ready d w' last none ended :=
  ready_none (fun h => by simp [h.1] at hl) (by rw [ho, hc]; exact hready.owes)

theorem blankLine_cases (hc : w.compact = false) :
    w.blankLine = w.newline ∨ w.blankLine = w.newline.push ['\n'] := by
  rw [blankLine, if_neg (by simp [hc])]
  dsimp only
  split
  · exact Or.inl rfl
  · exact Or.inl rfl
  · exact Or.inr rfl

/-- The text that instructions make feeds their words and the comments behind them. -/
theorem ahead_run {steps : List WriterStep} {phys : Option Written} {ended b : Bool}
    (hflows : Flows d last ended steps) (hready : Ready d w last phys ended) :
    Ahead d w phys (w.run steps).newline.written (words w.compact d b w.owesSemicolon steps)
      (behind w.compact b steps) := by
  induction steps generalizing w last phys ended b with
  | nil =>
    refine Ahead.newline ?_ (by simp [words]) hready.genuine
    refine ⟨[], rfl, fun final hf => ?_⟩
    obtain ⟨body, m, n, hbody, rfl, hmn⟩ := hf
    obtain ⟨rfl, hm⟩ : body = [] ∧ m = 0 := by simpa using hbody.symm
    obtain rfl : n = 0 := hmn.mp hm
    exact ⟨(feeds_replicate 0).mpr ⟨rfl, rfl⟩, by simp⟩
  | cons step more ih =>
    cases hs : step.written? with
    | some t =>
      simp only [Flows, hs] at hflows
      obtain ⟨ht, hmeets, hflows⟩ := hflows
      obtain ⟨hnext, hcompact, howes⟩ := ready_step (w := w) hs ht
      have hih := ih (b := false) hflows hnext
      rw [hcompact, howes] at hih
      simp only [words, behind, hs]
      exact Ahead.written hs hready ht (fun k hk _ => hmeets k hk) hih
    | none =>
      have hsame : ∀ w', w.step step = w' → w'.lastChar = w.lastChar →
          w'.afterRegExp = w.afterRegExp → w'.afterOpenNumber = w.afterOpenNumber →
          w'.charBefore = w.charBefore → w'.atLineStart = w.atLineStart →
          w'.owesSemicolon = w.owesSemicolon → w'.compact = w.compact →
          w'.written = w.written → Flows d last ended more → ∀ b : Bool,
          Ahead d w phys (w.run (step :: more)).newline.written
            (words w.compact d b w.owesSemicolon more) (behind w.compact b more) := by
        rintro w' rfl hl hr hn hb ha ho hc hw hf b
        have hih := ih (b := b) hf (hready.same hl hr hn hb ha ho hc)
        rw [ho, hc] at hih
        exact hih.same hw ha fun ⟨h1, h2, h3⟩ => ⟨ha ▸ h1, hl ▸ h2, hl ▸ h3⟩
      cases step with
      | token text | number text | regExp text | hardSemicolon => cases hs
      | indent | outdent | setBackLine =>
        exact hsame _ rfl rfl rfl rfl rfl rfl rfl rfl rfl hflows b
      | missing => exact absurd hflows (by simp [Flows, WriterStep.written?])
      | semicolon =>
        simp only [Flows, WriterStep.written?] at hflows
        obtain ⟨rfl, hflows⟩ := hflows
        rw [words_semicolon, behind_semicolon]
        split
        · next hc =>
          have hw : w.step .semicolon = { w with owesSemicolon := true } := by
            simp [Writer.step, semicolon, hc]
          have hih := ih (b := b) hflows (hw ▸ hready.owing hc)
          have hsame : (w.step .semicolon).written = w.written
              ∧ (w.step .semicolon).atLineStart = w.atLineStart
              ∧ (w.step .semicolon).lastChar = w.lastChar
              ∧ (w.step .semicolon).compact = w.compact
              ∧ (w.step .semicolon).owesSemicolon = true := by
            rw [hw]
            exact ⟨rfl, rfl, rfl, rfl, rfl⟩
          obtain ⟨hwritten, hline, hlast, hcompact, howes⟩ := hsame
          rw [hcompact, howes] at hih
          exact hih.same hwritten hline fun ⟨h1, h2, h3⟩ => ⟨hline ▸ h1, hlast ▸ h2, hlast ▸ h3⟩
        · next hc =>
          have howes : w.owesSemicolon = false := by
            cases ho : w.owesSemicolon with
            | false => rfl
            | true => exact absurd (hready.owes ho).1 hc
          have hw : w.step .semicolon = w.step .hardSemicolon := by
            simp [Writer.step, semicolon, hardSemicolon, hc]
          obtain ⟨hgenuine, hsym⟩ := semicolon_genuine d
          obtain ⟨hnext, hcompact, howes'⟩ := ready_step (w := w)
            (rfl : WriterStep.hardSemicolon.written? = some .semicolon) hgenuine
          rw [← hw] at hnext hcompact howes'
          have hih := ih (b := false) hflows hnext.ended
          rw [hcompact, howes'] at hih
          have hstep : Ahead d (w.step .hardSemicolon) (some .semicolon)
              ((w.step .semicolon).run more).newline.written (words w.compact d false false more)
              (behind w.compact false more) := hw ▸ hih
          have hall := Ahead.written (b := b) rfl hready hgenuine
            (fun k _ hk c hc hg => ?_) hstep
          · rwa [howes, hsym] at hall
          · obtain rfl : ';' = c := by simpa [Written.semicolon] using hc
            rw [hk.glues_loose (by decide)] at hg
            cases hg
      | comment text =>
        simp only [Flows, WriterStep.written?] at hflows
        obtain ⟨hcomment, hflows⟩ := hflows
        cases hc : w.compact with
        | true =>
          have hw : w.comment text = w := by rw [Writer.comment, if_pos hc]
          have hall := hsame w hw rfl rfl rfl rfl rfl rfl rfl rfl hflows true
          have hnoted : (b : Lead).noted true text = true := rfl
          rw [hc] at hall
          rwa [words_comment, behind_comment, hnoted]
        | false =>
          obtain ⟨hline, hcompact, howes⟩ : (w.step (.comment text)).atLineStart = true
              ∧ (w.step (.comment text)).compact = false
              ∧ (w.step (.comment text)).owesSemicolon = w.owesSemicolon := comment_kept hc
          have hnext : Ready d (w.step (.comment text)) last none ended :=
            ready_none (fun h => by simp [h.1] at hline) (by
              rw [howes, hcompact, ← hc]
              exact hready.owes)
          have hih := ih (b := true) hflows hnext
          rw [howes, hcompact] at hih
          have hnone : w.owesSemicolon = false := by
            cases ho : w.owesSemicolon with
            | false => rfl
            | true => rw [(hready.owes ho).1] at hc; cases hc
          rw [hnone] at hih ⊢
          have hnoted : (b : Lead).noted false text = (true : Lead).remarked [text] := rfl
          rw [words_comment, behind_comment, hnoted, words_remarked, behind_remarked (d := d)]
          exact Ahead.comment hc hih hcomment (words_breaks rfl) hready.genuine
      | space =>
        by_cases hline : (w.compact || w.atLineStart) = true
        · have hw : w.space = w := by rw [Writer.space, if_pos hline]
          exact hsame w hw rfl rfl rfl rfl rfl rfl rfl rfl hflows b
        · have hw : w.step .space
              = { w.push [' '] with charBefore := w.lastChar, lastChar := some ' ' } := by
            rw [Writer.step, Writer.space, if_neg hline]
          have hnext : Ready d (w.step .space) last none ended := by
            rw [hw]
            exact ready_none (fun h => h.2.2 rfl) hready.owes
          have hih := ih (b := b) hflows hnext
          have hkeep : (w.step .space).owesSemicolon = w.owesSemicolon
              ∧ (w.step .space).compact = w.compact := by
            rw [hw]
            exact ⟨rfl, rfl⟩
          rw [hkeep.1, hkeep.2] at hih
          exact hih.blank (by rw [hw]; rfl) (by rw [hw]; rfl) hready.genuine
      | newline =>
        by_cases hline : (w.compact || w.atLineStart) = true
        · have hw : w.newline = w := by rw [Writer.newline, if_pos hline]
          exact hsame w hw rfl rfl rfl rfl rfl rfl rfl rfl hflows true
        · obtain ⟨hc, -⟩ : w.compact = false ∧ w.atLineStart = false := by simpa using hline
          obtain ⟨hstart, howes, hcompact⟩ := newline_kept hc
          have hih := ih (b := true) hflows (hready.lineStart hstart howes hcompact)
          have htouch : ¬w.newline.Touches := fun h => by simp [h.1] at hstart
          rw [howes, hcompact] at hih
          exact (Ahead.untouched htouch hih).newline (words_breaks rfl) hready.genuine
      | blankLine =>
        cases hc : w.compact with
        | true =>
          have hw : w.blankLine = w := by rw [Writer.blankLine, if_pos hc]
          rw [← hc]
          exact hsame w hw rfl rfl rfl rfl rfl rfl rfl rfl hflows true
        | false =>
          obtain ⟨hstart, howes, hcompact⟩ := newline_kept hc
          have htouch : ¬w.newline.Touches := fun h => by simp [h.1] at hstart
          rcases blankLine_cases hc with hw | hw
          · have hnext : Ready d (w.step .blankLine) last none ended := by
              rw [Writer.step, hw]
              exact hready.lineStart hstart howes hcompact
            have hih := ih (b := true) hflows hnext
            simp only [Writer.step, hw, howes, hcompact, hc] at hih
            have hall := (Ahead.untouched htouch hih).newline (words_breaks rfl) hready.genuine
            rwa [← hw] at hall
          · have hline : (w.step .blankLine).atLineStart = true := by
              rw [Writer.step, hw]
              exact hstart
            have hkeep : (w.step .blankLine).owesSemicolon = w.owesSemicolon
                ∧ (w.step .blankLine).compact = false := by
              rw [Writer.step, hw]
              exact ⟨howes, hcompact.trans hc⟩
            have hnext : Ready d (w.step .blankLine) last none ended :=
              hready.lineStart hline hkeep.1 (hkeep.2.trans hc.symm)
            have hih := ih (b := true) hflows hnext
            rw [hkeep.1, hkeep.2] at hih
            have hfeed : (w.step .blankLine).written = '\n' :: w.newline.written := by
              rw [Writer.step, hw]
              rfl
            have hempty : Ahead d w.newline none ((w.step .blankLine).run more).newline.written
                (words false d true w.owesSemicolon more) (behind false true more) :=
              hih.lineFeed hfeed hline (words_breaks rfl) (by simp)
            exact (Ahead.untouched htouch hempty).newline (words_breaks rfl) hready.genuine

/-! ## Finished text -/

theorem dropBlankLines_keeps (text : List Char) :
    ∃ m n body, text = List.replicate m '\n' ++ body
      ∧ dropBlankLines text = List.replicate n '\n' ++ body ∧ (m = 0 ↔ n = 0) := by
  fun_induction dropBlankLines text with
  | case1 rest ih =>
    obtain ⟨m, n, body, htext, hdrop, hmn⟩ := ih
    cases m with
    | zero =>
      obtain rfl : n = 0 := hmn.mp rfl
      refine ⟨2, 1, rest, rfl, ?_, by simp⟩
      rw [hdrop]
      exact htext.symm
    | succ m =>
      refine ⟨m + 1 + 1, n, body, ?_, hdrop, by simpa using hmn⟩
      rw [List.replicate_succ, List.cons_append, ← htext]
  | case2 text h => exact ⟨0, 0, text, rfl, rfl, Iff.rfl⟩

/-- The text of instructions feeds the grammar their words, and the comments behind them. -/
theorem write_feeds (o : RenderOptions) {steps : List WriterStep} (b : Bool)
    (h : Flows d none false steps) :
    Feeds d true (Render.write o steps).toList (words o.compact d b false steps)
      (behind o.compact b steps) := by
  generalize hw : ({ layout := o.layout, compact := o.compact } : Writer) = w
  have hwritten : w.written = [] ∧ w.atLineStart = true ∧ w.compact = o.compact
      ∧ w.owesSemicolon = false := by
    rw [← hw]
    exact ⟨rfl, rfl, rfl, rfl⟩
  obtain ⟨hnil, hline, hcompact, howes⟩ := hwritten
  have hready : Ready d w none none false :=
    ready_none (fun h => by simp [h.1] at hline) (by simp [howes])
  have hrun : Ahead d w none (w.run steps).newline.written
      (words w.compact d b w.owesSemicolon steps) (behind w.compact b steps) :=
    ahead_run h hready
  obtain ⟨text, htext, hall⟩ := hrun
  rw [hnil, List.append_nil] at htext
  rw [hline, hcompact, howes] at hall
  have hfinish : ∃ final, (Render.write o steps).toList = final ∧ Trims text final := by
    refine ⟨_, rfl, ?_⟩
    rw [Render.write, hw, finish, String.toList_ofList]
    have hrun : (w.run steps).newline.written.reverse = text := by
      rw [htext, List.reverse_reverse]
    unfold Writer.newline at hrun
    cases hc : (w.run steps).compact with
    | true =>
      simp only [hc, Bool.true_or, if_true] at hrun ⊢
      rw [hrun]
      exact Trims.refl text
    | false =>
      obtain ⟨m, n, body, hbody, hdrop, hmn⟩ := dropBlankLines_keeps
        (if (w.run steps).atLineStart then (w.run steps).written
          else '\n' :: (w.run steps).written)
      have htext' : text = (List.replicate m '\n' ++ body).reverse := by
        rw [← hrun, ← hbody]
        simp only [hc, Bool.false_or]
        split <;> rfl
      refine ⟨body.reverse, m, n, by simp [htext'], ?_, hmn⟩
      rw [if_neg (by simp), hdrop]
      simp
  obtain ⟨final, rfl, hfinal⟩ := hfinish
  exact (hall _ hfinal).1

end ScriptPress.Writer
