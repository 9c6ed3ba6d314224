import ScriptPress.Proofs.Printing.Opening
import ScriptPress.Proofs.Reading.Statement

/-! # The words ahead of a reading

While written text is read again, the state of the reading stands in front of words: its token shows
the first one, the comments in front of it are not yet attached, and the rest of the text feeds the
other words. Each step of a reading that takes a token takes a word.
-/
namespace ScriptPress
open Lexer

/-! ## Words -/

/-- The same words, some of them perhaps at a new line. -/
inductive Loosens : List Word → List Word → Prop
  | nil : Loosens [] []
  | cons {s : Sym} {lead lead' : Lead} {ws ws' : List Word} :
      (lead.breaks = true → lead'.breaks = true) → lead'.remarks = lead.remarks → Loosens ws ws' →
      Loosens (⟨s, lead⟩ :: ws) (⟨s, lead'⟩ :: ws')

namespace Loosens
variable {ws ws' us us' : List Word}

theorem refl (ws : List Word) : Loosens ws ws := by
  induction ws with
  | nil => exact .nil
  | cons w ws ih => exact .cons (fun h => h) rfl ih

theorem length (h : Loosens ws ws') : ws.length = ws'.length := by
  induction h with
  | nil => rfl
  | cons _ _ _ ih => rw [List.length_cons, List.length_cons, ih]

theorem append (h : Loosens ws ws') (h' : Loosens us us') : Loosens (ws ++ us) (ws' ++ us') := by
  induction h with
  | nil => exact h'
  | cons hb hr _ ih => exact .cons hb hr ih

theorem feeds {d : Dialect} {fresh : Bool} {text : List Char} {tail : List String}
    (h : Loosens ws ws') (hf : Feeds d fresh text ws tail) : Feeds d fresh text ws' tail := by
  induction hf generalizing ws' with
  | finish hs =>
    cases h with
    | nil => exact .finish hs
  | word hs hc hr he hl hb hm _ ih =>
    cases h with
    | cons hb' hm' h =>
      exact .word hs hc hr he hl (fun hp => hb' (hb hp)) (hm'.trans hm) (ih h)
  | pattern hs hd hr hw hb hm _ ih =>
    cases h with
    | cons hb' hm' h =>
      exact .pattern hs hd hr hw (fun hp => hb' (hb hp)) (hm'.trans hm) (ih h)

end Loosens

/-- A lead with mute steps behind it. -/
def Lead.through (compact : Bool) (lead : Lead) : List WriterStep → Lead
  | [] => lead
  | .newline :: more | .blankLine :: more => lead.broken.through compact more
  | .comment text :: more => (lead.noted compact text).through compact more
  | _ :: more => lead.through compact more

section
variable {compact : Bool} {d : Dialect} {lead lead' : Lead} {owes : Bool}
  {xs more : List WriterStep}

theorem words_loosens (hb : lead.breaks = true → lead'.breaks = true)
    (hr : lead'.remarks = lead.remarks) (owes : Bool) (steps : List WriterStep) :
    Loosens (words compact d lead owes steps) (words compact d lead' owes steps) := by
  induction steps generalizing lead lead' owes with
  | nil => exact .nil
  | cons step more ih =>
    cases hs : step.written? with
    | some t =>
      have howed : Loosens (owed owes t lead) (owed owes t lead') := by
        rw [owed, owed]
        split
        · exact .cons hb hr .nil
        · exact .nil
      rw [words_written hs, words_written hs]
      exact howed.append (.cons hb hr (.refl _))
    | none =>
      cases step with
      | token _ | number _ | regExp _ | hardSemicolon => cases hs
      | semicolon =>
        rw [words_semicolon, words_semicolon]
        split
        · exact ih hb hr true
        · exact .cons hb hr (.refl _)
      | newline | blankLine => exact @ih lead.broken lead'.broken (fun h => h) hr owes
      | comment text =>
        have hnoted : (lead'.noted compact text).remarks = (lead.noted compact text).remarks := by
          simp only [Lead.noted, hr]
        exact @ih (lead.noted compact text) (lead'.noted compact text) (fun h => h) hnoted owes
      | space | indent | outdent | setBackLine | missing => exact ih hb hr owes

theorem through_append (lead : Lead) (xs ys : List WriterStep) :
    lead.through compact (xs ++ ys) = (lead.through compact xs).through compact ys := by
  induction xs generalizing lead with
  | nil => rfl
  | cons step xs ih => cases step <;> exact ih _

theorem words_mute (hxs : ∀ step ∈ xs, step.isMute = true) : words compact d lead owes (xs ++ more)
    = words compact d (lead.through compact xs) owes more := by
  induction xs generalizing lead with
  | nil => rfl
  | cons step xs ih =>
    have hstep := hxs step (by simp)
    have hrest : ∀ step' ∈ xs, step'.isMute = true := fun step' hs =>
      hxs step' (List.mem_cons_of_mem step hs)
    cases step with
    | token _ | number _ | regExp _ | hardSemicolon | semicolon | missing => cases hstep
    | _ => exact ih hrest

theorem behind_mute (hxs : ∀ step ∈ xs, step.isMute = true) : behind compact lead (xs ++ more)
    = behind compact (lead.through compact xs) more := by
  induction xs generalizing lead with
  | nil => rfl
  | cons step xs ih =>
    have hstep := hxs step (by simp)
    have hrest : ∀ step' ∈ xs, step'.isMute = true := fun step' hs =>
      hxs step' (List.mem_cons_of_mem step hs)
    cases step with
    | token _ | number _ | regExp _ | hardSemicolon | semicolon | missing => cases hstep
    | _ => exact ih hrest

theorem length_words (lead lead' : Lead) (owes : Bool) (steps : List WriterStep) :
    (words compact d lead owes steps).length = (words compact d lead' owes steps).length := by
  induction steps generalizing lead lead' owes with
  | nil => rfl
  | cons step more ih =>
    cases hs : step.written? with
    | some t =>
      have howed : (owed owes t lead).length = (owed owes t lead').length := by
        rw [owed, owed]
        split <;> rfl
      rw [words_written hs, words_written hs, List.length_append, List.length_append, howed]
      rfl
    | none =>
      cases step with
      | token _ | number _ | regExp _ | hardSemicolon => cases hs
      | semicolon =>
        rw [words_semicolon, words_semicolon]
        split
        · exact ih lead lead' true
        · rfl
      | newline | blankLine | comment _ => exact ih _ _ owes
      | space | indent | outdent | setBackLine | missing => exact ih _ _ owes

/-- A semicolon that is owed adds at most itself. -/
theorem length_words_owes (lead lead' : Lead) (owes : Bool) (steps : List WriterStep) :
    (words compact d lead' false steps).length ≤ (words compact d lead owes steps).length := by
  induction steps generalizing lead lead' with
  | nil => exact Nat.le_refl _
  | cons step more ih =>
    cases hs : step.written? with
    | some t =>
      rw [words_written hs, words_written hs]
      simp [owed]
    | none =>
      cases step with
      | token _ | number _ | regExp _ | hardSemicolon => cases hs
      | semicolon =>
        rw [words_semicolon, words_semicolon]
        split
        · exact Nat.le_of_eq (length_words lead' lead true more)
        · simp
      | newline | blankLine | comment _ => exact ih _ _
      | space | indent | outdent | setBackLine | missing => exact ih _ _

/-- What comes behind instructions has no more words than all of it. -/
theorem length_words_append (lead lead' : Lead) (owes : Bool) (xs more : List WriterStep) :
    (words compact d lead' false more).length
      ≤ (words compact d lead owes (xs ++ more)).length := by
  induction xs generalizing lead owes with
  | nil => exact length_words_owes lead lead' owes more
  | cons step xs ih =>
    rw [List.cons_append]
    cases hs : step.written? with
    | some t =>
      rw [words_written hs, List.length_append, List.length_cons]
      have := ih false false
      omega
    | none =>
      cases step with
      | token _ | number _ | regExp _ | hardSemicolon => cases hs
      | semicolon =>
        rw [words_semicolon]
        split
        · exact ih lead true
        · exact Nat.le_succ_of_le (ih false false)
      | newline | blankLine | comment _ => exact ih _ owes
      | space | indent | outdent | setBackLine | missing => exact ih _ owes

end

/-- The words of instructions begin with that of their first token. -/
theorem Opens.words_head {d : Dialect} {P : Sym → Prop} {xs : List WriterStep} (h : Opens d P xs)
    (compact : Bool) (lead : Lead) (more : List WriterStep) :
    ∃ s lead' ws, words compact d lead false (xs ++ more) = ⟨s, lead'⟩ :: ws ∧ P s
      ∧ ∀ lead, (words compact d lead false more).length ≤ ws.length := by
  induction h generalizing lead with
  | heads h =>
    obtain ⟨step, rest, t, rfl, hs, -, hp⟩ := h
    refine ⟨t.sym d, lead, words compact d false false (rest ++ more), ?_, hp, fun lead' => ?_⟩
    · rw [List.cons_append, words_written hs]
      rfl
    · exact length_words_append false lead' false rest more
  | @skip step zs hs _ ih =>
    cases step with
    | token _ | number _ | regExp _ | hardSemicolon | semicolon | missing => cases hs
    | _ => exact ih _

/-- Instructions after which a statement can end: a closing brace, the end of the text, or a token
that the semicolon stands before. -/
inductive Resumes (d : Dialect) (P : Sym → Prop) : List WriterStep → Prop
  | finish : Resumes d P []
  | heads {zs : List WriterStep} : Heads d P zs → Resumes d P zs
  | skip {step : WriterStep} {zs : List WriterStep} : step.isMute = true → Resumes d P zs →
      Resumes d P (step :: zs)

namespace Resumes
variable {d : Dialect} {P Q : Sym → Prop} {xs more : List WriterStep}

theorem mono (h : Resumes d P xs) (hPQ : ∀ s, P s → Q s) : Resumes d Q xs := by
  induction h with
  | finish => exact .finish
  | heads h => exact .heads (h.mono hPQ)
  | skip hs _ ih => exact .skip hs ih

theorem of_opens (h : Opens d P xs) (more : List WriterStep) : Resumes d P (xs ++ more) := by
  induction h with
  | heads h => exact .heads (h.append more)
  | skip hs _ ih => exact .skip hs ih

theorem behind (hxs : ∀ step ∈ xs, step.isMute = true) (h : Resumes d P more) :
    Resumes d P (xs ++ more) := by
  induction xs with
  | nil => exact h
  | cons step xs ih =>
    exact .skip (hxs step (by simp)) (ih fun step' hs' => hxs step' (List.mem_cons_of_mem step hs'))

theorem head {compact : Bool} {lead : Lead} (h : Resumes d P xs) :
    ∀ w ∈ (words compact d lead false xs).head?, P w.sym := by
  induction h generalizing lead with
  | finish => simp [words]
  | heads h =>
    obtain ⟨step, more, t, rfl, hs, -, hp⟩ := h
    rw [words_written hs]
    simpa [owed] using hp
  | @skip step zs hs _ ih =>
    cases step with
    | token _ | number _ | regExp _ | hardSemicolon | semicolon => cases hs
    | _ => exact ih

/-- Only a closing brace is written as one. -/
theorem brace_sym {t : Written} (ht : t.Genuine d) (h : t.text = ['\x7d']) :
    t.sym d = ⟨.rightBrace, none, none⟩ := by
  have hsign : IsSign d .rightBrace none := isSign_everywhere (by decide)
  have hsym : classify d ['\x7d'] = ⟨.rightBrace, none, none⟩ := classify_of hsign
  obtain ⟨kind, text⟩ := t
  obtain rfl : text = _ := h
  cases kind with
  | plain | number => exact hsym
  | regExp =>
    obtain ⟨-, body, hbody, -⟩ := ht
    cases hbody

/-- The semicolon owed to a statement stands before the next token, unless that is a closing brace
or there is none. Compact output has no comment in front of it. -/
theorem settles {compact : Bool} {lead : Lead} (h : Resumes d P xs) :
    (words compact d lead true xs = words compact d lead false xs
        ∧ ∀ w ∈ (words compact d lead false xs).head?, w.sym = ⟨.rightBrace, none, none⟩)
      ∨ ∃ lead' : Lead, (compact = true → lead'.remarks = lead.remarks)
        ∧ words compact d lead true xs
          = ⟨⟨.semicolon, none, none⟩, lead'⟩ :: words compact d lead false xs := by
  induction h generalizing lead with
  | finish => exact .inl ⟨rfl, by simp [words]⟩
  | heads h =>
    obtain ⟨step, more, t, rfl, hs, ht, -⟩ := h
    rw [words_written hs, words_written hs]
    by_cases hbrace : t.text = ['\x7d']
    · left
      refine ⟨by simp [owed, hbrace], ?_⟩
      simpa [owed] using brace_sym ht hbrace
    · right
      exact ⟨lead, fun _ => rfl, by simp [owed, hbrace]⟩
  | @skip step zs hs _ ih =>
    cases step with
    | token _ | number _ | regExp _ | hardSemicolon | semicolon => cases hs
    | comment text =>
      refine (@ih (lead.noted compact text)).imp_right fun ⟨lead', hremarks, hwords⟩ =>
        ⟨lead', fun hc => ?_, hwords⟩
      rw [hremarks hc, Lead.noted, if_pos hc]
    | newline | blankLine => exact @ih lead.broken
    | _ => exact ih

end Resumes

namespace Grammar
variable {α β : Type}

/-! ## States in front of words -/

/-- A token and the lexer behind it stand in front of words, with comments behind the last one. -/
def Faces (d : Dialect) (t : Token) (lx : Lexer) : List Word → List String → Prop
  | [], _ => t.tag = .endOfInput
  | w :: ws, tail => lx.fresh = false ∧ (t.newlineBefore = true → w.lead.breaks = true)
    ∧ ∃ after, Shows d w.sym t lx.rest after ∧ Feeds d false after ws tail

/-- What is written and read again: how it is written, the dialect, whether comments are kept, and
the comments behind all words. -/
structure Tape where
  o : RenderOptions
  dialect : Dialect
  keep : Bool
  tail : List String

namespace Tape

/-- The words of instructions. -/
def words (x : Tape) (lead : Lead) (owes : Bool) (steps : List WriterStep) : List Word :=
  ScriptPress.words x.o.compact x.dialect lead owes steps

/-- The comments that are heard of some. -/
def hears (x : Tape) (cs : List String) : List String := Lexer.hears x.keep cs

/-- The comments in front of words. -/
def remarks (x : Tape) : List Word → List String
  | [] => x.tail
  | w :: _ => w.lead.remarks

/-- What comes behind instructions has no more words than all of it. -/
theorem length_words_behind (x : Tape) (lead lead' : Lead) (xs more : List WriterStep) :
    (x.words lead' false more).length ≤ (x.words lead false (xs ++ more)).length :=
  length_words_append lead lead' false xs more

@[simp] theorem hears_nil (x : Tape) : x.hears [] = [] := by
  rw [hears, Lexer.hears, ite_self]

end Tape

/-- A state of a reading that began at another one and stands in front of words. -/
structure Fed (x : Tape) (s₀ : State) (ws : List Word) (s : State) : Prop where
  kept : Kept s₀ s
  dialect : s.lexer.dialect = x.dialect
  keeps : s.lexer.keepComments = x.keep
  taken : s.lexer.comments = []
  labels : ∀ l ∈ s₀.labels, l.id.index < s₀.nextId
  faces : Faces x.dialect s.current s.lexer ws x.tail
  comments : s.comments = x.hears (x.remarks ws)

section
variable {x : Tape} {s₀ s s' : State} {w : Word} {ws ws' : List Word} {tag : Tag}

/-- Reading the next token leads to the words behind. -/
theorem advance_feeds (hkept : Kept s₀ s) (hd : s.lexer.dialect = x.dialect)
    (hkeep : s.lexer.keepComments = x.keep) (htaken : s.lexer.comments = [])
    (hlabels : ∀ l ∈ s₀.labels, l.id.index < s₀.nextId) (hcomments : s.comments = [])
    (hfeeds : Feeds x.dialect s.lexer.fresh s.lexer.rest ws x.tail) :
    ∃ s', advance s = .ok (s.current, s') ∧ Fed x s₀ ws s' := by
  obtain ⟨t, lexer, hnext, hheard, hlike, hfaces⟩ : ∃ t lexer,
      s.lexer.next = (.ok t, lexer) ∧ lexer.heard = x.hears (x.remarks ws)
        ∧ lexer.Like s.lexer ∧ Faces x.dialect t lexer ws x.tail := by
    have hnone : s.lexer.heard = [] := by rw [Lexer.heard, htaken, List.map_nil]
    rw [← hd] at hfeeds
    cases ws with
    | nil =>
      obtain ⟨t, lexer, hnext, htag, hh, hlike⟩ := next_feeds_nil hfeeds
      rw [hnone, List.nil_append, hkeep] at hh
      exact ⟨t, lexer, hnext, hh, hlike, htag⟩
    | cons w ws =>
      obtain ⟨t, lexer, after, hnext, hbreak, hshows, hfeeds', hh, hfresh, hlike⟩ :=
        next_feeds hfeeds
      rw [hnone, List.nil_append, hkeep] at hh
      rw [hd] at hshows hfeeds'
      exact ⟨t, lexer, hnext, hh, hlike, hfresh, hbreak, after, hshows, hfeeds'⟩
  have htexts : lexer.takeComments.1.map Comment.text = x.hears (x.remarks ws) := hheard
  refine ⟨{ s with
    lexer := lexer.takeComments.2, current := t
    previousLine := s.current.line, previousStop := s.current.stop
    comments := s.comments ++ lexer.takeComments.1.map Comment.text
    heard := s.heard ++ lexer.takeComments.1.map Comment.text
    taken := s.current :: s.taken }, ?_, ?_⟩
  · simp only [advance, bind_ok (rfl : (get : Reading State) s = .ok (s, s)), hnext]
    rfl
  have hdialect : lexer.dialect = s.lexer.dialect := hlike.1
  refine ⟨⟨?_, hkept.nextId⟩, hdialect.trans hd, hlike.2.trans hkeep, rfl, hlabels, ?_, ?_⟩
  · rw [← hkept.frame]
    simp only [State.frame, Lexer.takeComments, hdialect]
  · cases ws with
    | nil => exact hfaces
    | cons w ws => exact hfaces
  · simp only [htexts]
    rw [hcomments, List.nil_append]

namespace Fed

/-- A step that takes no token and leaves the surroundings. -/
theorem same (h : Fed x s₀ ws s) (hlexer : s'.lexer = s.lexer) (hcurrent : s'.current = s.current)
    (hcomments : s'.comments = s.comments) (hkept : Kept s s') : Fed x s₀ ws s' := by
  refine ⟨h.kept.trans hkept, ?_, ?_, ?_, h.labels, ?_, hcomments.trans h.comments⟩
  · rw [hlexer]
    exact h.dialect
  · rw [hlexer]
    exact h.keeps
  · rw [hlexer]
    exact h.taken
  · rw [hlexer, hcurrent]
    exact h.faces

/-- The same state as the beginning of another reading. -/
theorem rebase (h : Fed x s₀ ws s) (hlabels : ∀ l ∈ s'.labels, l.id.index < s'.nextId)
    (hlexer : s'.lexer = s.lexer) (hcurrent : s'.current = s.current)
    (hcomments : s'.comments = s.comments) : Fed x s' ws s' := by
  refine ⟨.refl s', ?_, ?_, ?_, hlabels, ?_, hcomments.trans h.comments⟩
  · rw [hlexer]
    exact h.dialect
  · rw [hlexer]
    exact h.keeps
  · rw [hlexer]
    exact h.taken
  · rw [hlexer, hcurrent]
    exact h.faces

theorem loosen (h : Fed x s₀ ws s) (hws : Loosens ws ws') : Fed x s₀ ws' s := by
  refine ⟨h.kept, h.dialect, h.keeps, h.taken, h.labels, ?_, ?_⟩
  · have hfaces := h.faces
    cases hws with
    | nil => exact hfaces
    | cons hb hr hws =>
      obtain ⟨hfresh, hbreak, after, hshows, hfeeds⟩ := hfaces
      exact ⟨hfresh, fun h => hb (hbreak h), after, hshows, hws.feeds hfeeds⟩
  · rw [h.comments]
    cases hws with
    | nil => rfl
    | cons hb hr hws => exact congrArg x.hears hr.symm

/-- All labels in force are older than what is read next. -/
theorem labels_lt (h : Fed x s₀ ws s) : ∀ l ∈ s.labels, l.id.index < s.nextId := by
  intro l hl
  rw [h.kept.labels] at hl
  exact Nat.lt_of_lt_of_le (h.labels l hl) h.kept.nextId

/-! ### The current token -/

theorem sym (h : Fed x s₀ (w :: ws) s) (hw : w.sym.tag ≠ .regExp) : s.current.sym = w.sym := by
  obtain ⟨-, -, after, hshows, -⟩ := h.faces
  cases hshows with
  | plain _ _ hsym _ => exact hsym
  | pattern _ _ hsym _ => exact absurd (by rw [hsym]; rfl) hw

theorem tag_eq (h : Fed x s₀ (w :: ws) s) (hw : w.sym.tag ≠ .regExp) :
    s.current.tag = w.sym.tag := congrArg Sym.tag (h.sym hw)

/-- A pattern is first read as a slash. -/
theorem slash (h : Fed x s₀ (w :: ws) s) (hw : w.sym.tag = .regExp) : s.current.isSlash = true := by
  obtain ⟨-, -, after, hshows, -⟩ := h.faces
  cases hshows with
  | plain hr _ _ _ => exact absurd hw hr
  | pattern hslash _ _ _ => exact hslash

theorem tag_ne (h : Fed x s₀ (w :: ws) s) (hw : w.sym.tag ≠ tag)
    (htag : tag ≠ .div ∧ tag ≠ .assign) : s.current.tag ≠ tag := by
  by_cases hr : w.sym.tag = .regExp
  · have hslash := h.slash hr
    rintro rfl
    simp [Token.isSlash, htag] at hslash
  · rw [h.tag_eq hr]
    exact hw

/-- The end of the text. -/
theorem tag_nil (h : Fed x s₀ [] s) : s.current.tag = .endOfInput := h.faces

/-- A token that is no first one. -/
theorem head_ne (h : Fed x s₀ ws s) (hws : ∀ w ∈ ws.head?, w.sym.tag ≠ tag)
    (htag : tag ≠ .div ∧ tag ≠ .assign ∧ tag ≠ .endOfInput) : s.current.tag ≠ tag := by
  cases ws with
  | nil =>
    rw [h.tag_nil]
    exact Ne.symm htag.2.2
  | cons w ws => exact h.tag_ne (hws w rfl) ⟨htag.1, htag.2.1⟩

theorem newline (h : Fed x s₀ (w :: ws) s) (hw : w.lead.breaks = false) :
    s.current.newlineBefore = false := by
  obtain ⟨-, hbreak, -⟩ := h.faces
  by_contra hnew
  rw [Bool.not_eq_false] at hnew
  rw [hbreak hnew] at hw
  cases hw

/-! ### Steps of a reading -/

variable {Q : β → State → Prop} {sym : Sym} {b : Bool}

/-- Nothing stands in front of a word that is about to be taken. -/
theorem no_comments (h : Fed x s₀ (⟨sym, b⟩ :: ws) s) : s.comments = [] := by
  rw [h.comments, Tape.remarks, Tape.hears_nil]

theorem advance (h : Fed x s₀ (⟨sym, b⟩ :: ws) s) (hw : sym.tag ≠ .regExp) {f : Token → Reading β}
    (hf : ∀ s', Fed x s₀ ws s' → Ensures True (f s.current) s' Q) :
    Ensures True (Grammar.advance >>= f) s Q := by
  obtain ⟨hfresh, -, after, hshows, hfeeds⟩ := h.faces
  cases hshows with
  | pattern _ _ hsym _ => exact absurd (congrArg Sym.tag hsym) hw
  | plain _ _ _ hrest =>
    rw [← hrest, ← hfresh] at hfeeds
    obtain ⟨s', hm, hs'⟩ := advance_feeds h.kept h.dialect h.keeps h.taken h.labels h.no_comments
      hfeeds
    exact Ensures.bind (ensures_of_ok hm ⟨rfl, hs'⟩ :
      Ensures True Grammar.advance s fun t s' => t = s.current ∧ Fed x s₀ ws s')
      fun t s' ⟨ht, hs'⟩ => ht ▸ hf s' hs'

/-- A regular expression is read again from its slash, and then taken. -/
theorem rescan {text : List Char} (h : Fed x s₀ (⟨.pattern text, b⟩ :: ws) s)
    {f : Unit → Reading β}
    (hf : ∀ s', s'.current.tag = .regExp → s'.current.shown = String.ofList text →
      (∀ {g : Token → Reading β}, (∀ s'', Fed x s₀ ws s'' → Ensures True (g s'.current) s'' Q) →
        Ensures True (Grammar.advance >>= g) s' Q) → Ensures True (f ()) s' Q) :
    Ensures True (Grammar.rescan >>= f) s Q := by
  obtain ⟨hfresh, -, after, hshows, hfeeds⟩ := h.faces
  cases hshows with
  | plain hr _ _ _ => exact absurd rfl hr
  | @pattern body hslash hdialect hsym hscan =>
    have htext : text = '/' :: body := by
      have hlist := congrArg String.toList (Option.some.inj (congrArg Sym.text hsym))
      simpa only [String.toList_ofList] using hlist
    obtain ⟨t, lexer, hrescan, htag, hshown, hrest, hfresh', hd, hkeep, htaken⟩ : ∃ t lexer,
        s.lexer.rescan s.current = (.ok t, lexer) ∧ t.tag = .regExp
          ∧ t.shown = String.ofList text ∧ lexer.rest = after ∧ lexer.fresh = false
          ∧ lexer.dialect = x.dialect ∧ lexer.keepComments = x.keep ∧ lexer.comments = [] := by
      have hregExps : s.lexer.dialect.hasRegExpLiterals = true := by rw [h.dialect, hdialect]
      have hscan' : Literal.regExp (if s.current.tag == .assign then '=' :: s.lexer.rest
          else s.lexer.rest) = .token body after := hscan
      simp only [Lexer.rescan, hregExps, Bool.not_true, Bool.false_eq_true, if_false, hscan']
      exact ⟨_, _, rfl, rfl, by rw [htext]; rfl, rfl, hfresh, h.dialect, h.keeps, h.taken⟩
    have hm : Grammar.rescan s = .ok ((), { s with lexer := lexer, current := t }) := by
      simp only [Grammar.rescan, bind_ok (rfl : (get : Reading State) s = .ok (s, s)), hrescan]
      rfl
    refine Ensures.bind (ensures_of_ok hm rfl : Ensures True Grammar.rescan s fun _ s' =>
      s' = { s with lexer := lexer, current := t }) fun _ s' hs' => ?_
    subst hs'
    refine hf _ htag hshown fun hg => ?_
    have hkept : Kept s₀ { s with lexer := lexer, current := t } := by
      refine h.kept.trans ⟨?_, Nat.le_refl _⟩
      simp only [State.frame, hd, h.dialect]
    rw [← hrest, ← hfresh'] at hfeeds
    obtain ⟨s'', hm', hs''⟩ := advance_feeds hkept hd hkeep htaken h.labels h.no_comments hfeeds
    exact Ensures.bind (ensures_of_ok hm' ⟨rfl, hs''⟩ : Ensures True Grammar.advance _ fun t' s' =>
      t' = t ∧ Fed x s₀ ws s') fun t' s' h' => h'.1 ▸ hg s' h'.2

/-- The current token has the tag that is expected. -/
theorem expect {what : Expected} (h : Fed x s₀ (⟨sym, b⟩ :: ws) s) (hw : sym.tag = tag)
    (htag : tag ≠ .regExp) {f : Token → Reading β}
    (hf : ∀ s', Fed x s₀ ws s' → Ensures True (f s.current) s' Q) :
    Ensures True (Grammar.expect tag what >>= f) s Q := by
  have hr : sym.tag ≠ .regExp := by rwa [hw]
  have hcurrent : s.current.tag = tag := (h.tag_eq hr).trans hw
  refine Ensures.bind (?_ : Ensures True (Grammar.expect tag what) s fun t s' =>
    t = s.current ∧ Fed x s₀ ws s') fun t s' ⟨ht, hs'⟩ => ht ▸ hf s' hs'
  refine ensures_ifCheck (fun _ => ?_) fun hne => absurd hcurrent hne
  rw [← bind_pure Grammar.advance]
  exact h.advance hr fun s' hs' => ensures_pure ⟨rfl, hs'⟩

theorem accept (h : Fed x s₀ (⟨sym, b⟩ :: ws) s) (hw : sym.tag = tag) (htag : tag ≠ .regExp)
    {f : Bool → Reading β} (hf : ∀ s', Fed x s₀ ws s' → Ensures True (f true) s' Q) :
    Ensures True (Grammar.accept tag >>= f) s Q := by
  have hr : sym.tag ≠ .regExp := by rwa [hw]
  have hcurrent : s.current.tag = tag := (h.tag_eq hr).trans hw
  refine Ensures.bind (?_ : Ensures True (Grammar.accept tag) s fun b s' =>
    b = true ∧ Fed x s₀ ws s') fun b s' ⟨hb, hs'⟩ => hb ▸ hf s' hs'
  refine ensures_ifCheck (fun _ => ?_) fun hne => absurd hcurrent hne
  exact h.advance hr fun s' hs' => ensures_pure ⟨rfl, hs'⟩

end Fed

/-- The current token has another tag than one that may be left out. -/
theorem ensures_accept_none {Q : β → State → Prop} {f : Bool → Reading β}
    (h : s.current.tag ≠ tag) (hf : Ensures True (f false) s Q) :
    Ensures True (Grammar.accept tag >>= f) s Q := by
  refine Ensures.bind (?_ : Ensures True (Grammar.accept tag) s fun b s' => b = false ∧ s' = s)
    fun b s' ⟨hb, hs'⟩ => by rw [hb, hs']; exact hf
  exact ensures_ifCheck (fun htag => absurd htag h) fun _ => ensures_pure ⟨rfl, rfl⟩

namespace Fed
variable {Q : β → State → Prop}

/-! ### Steps that take no token -/

theorem warn (h : Fed x s₀ ws s) {c : Concern} {line : Nat} {f : Unit → Reading β}
    (hf : ∀ s', Fed x s₀ ws s' → Ensures True (f ()) s' Q) :
    Ensures True (Grammar.warn c line >>= f) s Q :=
  ensures_modify (hf _ (h.same rfl rfl rfl ⟨rfl, Nat.le_refl _⟩))

theorem freshId (h : Fed x s₀ ws s) {f : NodeId → Reading β}
    (hf : ∀ id s', s.nextId ≤ id.index → id.index < s'.nextId → Kept s s' → Fed x s₀ ws s' →
      Ensures True (f id) s' Q) : Ensures True (Grammar.freshId >>= f) s Q :=
  hf ⟨s.nextId⟩ { s with nextId := s.nextId + 1 } (Nat.le_refl _) (Nat.lt_succ_self _)
    ⟨rfl, Nat.le_succ _⟩ (h.same rfl rfl rfl ⟨rfl, Nat.le_succ _⟩)

theorem makeNode (h : Fed x s₀ ws s) {data : Node} {children : List Tree} {f : Tree → Reading β}
    (hf : ∀ id s', Kept s s' → Fed x s₀ ws s' →
      Ensures True (f (.node id data children)) s' Q) :
    Ensures True (Grammar.makeNode data children >>= f) s Q :=
  hf ⟨s.nextId⟩ { s with nextId := s.nextId + 1 } ⟨rfl, Nat.le_succ _⟩
    (h.same rfl rfl rfl ⟨rfl, Nat.le_succ _⟩)

theorem makeNode_last (h : Fed x s₀ ws s) {data : Node} {children : List Tree}
    {Q : Tree → State → Prop} (hf : ∀ id s', Fed x s₀ ws s' → Q (.node id data children) s') :
    Ensures True (Grammar.makeNode data children) s Q :=
  hf ⟨s.nextId⟩ { s with nextId := s.nextId + 1 } (h.same rfl rfl rfl ⟨rfl, Nat.le_succ _⟩)

/-- The comments in front of a word are taken. -/
theorem takeComments {sym : Sym} {lead : Lead} (h : Fed x s₀ (⟨sym, lead⟩ :: ws) s)
    {f : List String → Reading β}
    (hf : ∀ s', Fed x s₀ (⟨sym, lead.breaks⟩ :: ws) s' →
      Ensures True (f (x.hears lead.remarks)) s' Q) :
    Ensures True (Grammar.takeComments >>= f) s Q := by
  have hnext := hf { s with comments := [] }
    ⟨h.kept.trans ⟨rfl, Nat.le_refl _⟩, h.dialect, h.keeps, h.taken, h.labels, h.faces,
      by rw [Tape.remarks, Tape.hears_nil]⟩
  have hcomments : s.comments = x.hears lead.remarks := h.comments
  rw [← hcomments] at hnext
  exact hnext

theorem modifyScope (h : Fed x s₀ ws s) {change : Scope → Scope}
    (hchange : (change s.scope).function? = s.scope.function?) {f : Unit → Reading β}
    (hf : ∀ s', Fed x s₀ ws s' → Ensures True (f ()) s' Q) :
    Ensures True (Grammar.modifyScope change >>= f) s Q :=
  ensures_modify (hf _ (h.same rfl rfl rfl ⟨by simp [State.frame, hchange], Nat.le_refl _⟩))

theorem warnOfKeyword (h : Fed x s₀ ws s) {name : String} {line : Nat} {f : Unit → Reading β}
    (hf : ∀ s', Fed x s₀ ws s' → Ensures True (f ()) s' Q) :
    Ensures True (Grammar.warnOfKeyword name line >>= f) s Q := by
  refine Ensures.bind (P := fun _ s' => Fed x s₀ ws s') ?_ fun _ s' hs' => hf s' hs'
  refine ensures_get ?_
  split
  · exact h.warn fun s' hs' => ensures_pure hs'
  · exact ensures_pure h

end Fed
end

end Grammar
end ScriptPress
