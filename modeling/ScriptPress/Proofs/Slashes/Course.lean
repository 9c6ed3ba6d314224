import ScriptPress.Proofs.Insertion.Course
import ScriptPress.Proofs.Reading.Aside
import ScriptPress.Proofs.Slashes.Serving

/-! # The place a reading has come to

Rules for what a reading knows of the tokens it took. Where it asks for an operand, one can begin
behind the last token, so that a slash is read again in its place; where it asks for an operator,
the last token ended an operand.
-/
namespace ScriptPress

namespace Tag

/-- The tags of tokens that stand anywhere and in front of operands, but for the parentheses. -/
def isOpening : Tag → Bool
  | .leftParen | .rightParen | .endOfInput | .number | .string | .regExp | .primary
  | .rightBracket | .div | .assign | .relation | .shift => false
  | _ => true

/-- The tags of tokens that end an operand, wherever they stand. -/
def isClosing : Tag → Bool
  | .identifier | .number | .string | .primary | .reserved | .rightBracket | .rightBrace => true
  | _ => false

/-- The tags of tokens that stand between operands. -/
def isOperator (tag : Tag) : Bool :=
  tag.isOpening || tag == .div || tag == .assign || tag == .relation || tag == .shift

end Tag

namespace Token
variable {t : Token}

theorem isOperator_tag (h : t.tag.isOperator = true) : t.precedesOperand = true
    ∧ t.tag ≠ .endOfInput ∧ t.tag ≠ .leftParen ∧ t.tag ≠ .rightParen := by
  have hne : ∀ tag : Tag, tag.isOperator = false → t.tag ≠ tag := by
    rintro _ hno rfl
    simp [h] at hno
  refine ⟨?_, hne _ rfl, hne _ rfl, hne _ rfl⟩
  obtain ⟨tag⟩ := t
  cases tag <;> first | rfl | cases h

theorem isOpening_tag (h : t.tag.isOpening = true) :
    t.tag.isOperator = true ∧ t.followsOperand = false := by
  obtain ⟨tag⟩ := t
  cases tag <;> first | exact ⟨rfl, rfl⟩ | cases h

theorem isClosing_tag (h : t.tag.isClosing = true) :
    t.endsOperand = true ∧ t.tag ≠ .rightParen ∧ t.tag ≠ .regExp := by
  have hne : ∀ tag : Tag, tag.isClosing = false → t.tag ≠ tag := by
    rintro _ hno rfl
    simp [h] at hno
  refine ⟨?_, hne _ rfl, hne _ rfl⟩
  obtain ⟨tag⟩ := t
  cases tag <;> first | rfl | cases h

theorem endsOperand_tag (h : t.endsOperand = true) :
    t.followsOperand = false ∧ t.tag ≠ .endOfInput ∧ t.tag ≠ .leftParen := by
  refine ⟨?_, fun htag => ?_, fun htag => ?_⟩
  · obtain ⟨tag⟩ := t
    cases tag <;> first | rfl | cases h
  · simp [endsOperand, htag] at h
  · simp [endsOperand, htag] at h

end Token

namespace Grammar
open SlashReader (Context byContext opensHeader)
open SlashReader.Context (Along)

namespace Sight
variable {lx lx' : Lexer} {headers : List Bool} {v : Sight} {t : Token}

def tokens (v : Sight) : List Token := v.taken.reverse.filter (·.tag != .endOfInput)

/-- What is known of the tokens taken so far. -/
def context (v : Sight) : Context := ({} : Context).after v.tokens

/-- A lexer led here: what can be taken from here on can be taken from it behind the tokens taken
so far, with all comments that were met. What stands for a token before the first one was taken
before them. -/
def Led (lx : Lexer) (v : Sight) : Prop :=
  ∃ first read cs, v.taken.reverse = first :: v.tokens ∧ read.map Prod.fst = v.tokens
    ∧ v.heard = (read.flatMap Prod.snd ++ cs).map Comment.text
    ∧ ∀ ts, v.lexer.Serves v.current cs ts → lx.Yields (read ++ ts)

/-- The tokens taken so far are in their places. -/
structure Fair (lx : Lexer) (headers : List Bool) (v : Sight) : Prop where
  fits : Along Context.Fits {} v.tokens
  headers : v.context.headers = headers
  led : v.Led lx

/-- A place with a token that was not read again. -/
structure Fresh (lx : Lexer) (headers : List Bool) (v : Sight) : Prop
    extends Fair lx headers v where
  unread : v.current.tag ≠ .regExp

/-- A place before an operand or a statement. -/
structure Before (lx : Lexer) (headers : List Bool) (v : Sight) : Prop
    extends Fresh lx headers v where
  begins : v.current.isSlash = true → v.context.begins = true

/-- A place behind an operand. -/
structure Behind (lx : Lexer) (headers : List Bool) (v : Sight) : Prop
    extends Fresh lx headers v where
  ended : v.context.ended = true

/-- A place behind a whole expression. -/
structure Done (lx : Lexer) (headers : List Bool) (v : Sight) : Prop
    extends Behind lx headers v where
  plain : v.current.isSlash = false

/-- A place behind the word before the header of a statement. -/
structure AtHeader (lx : Lexer) (headers : List Bool) (v : Sight) : Prop
    extends Fresh lx headers v where
  heads : v.context.previous.any opensHeader = true

theorem Done.before (h : v.Done lx headers) : v.Before lx headers :=
  ⟨h.toFresh, fun hslash => by simp [h.plain] at hslash⟩

/-! ## Taking a token -/

theorem tokens_after (hend : v.current.tag ≠ .endOfInput) :
    (v.after t lx').tokens = v.tokens ++ [v.current] := by
  simp [tokens, after, hend]

theorem context_after (hend : v.current.tag ≠ .endOfInput) :
    (v.after t lx').context = byContext.note v.context v.current := by
  rw [context, tokens_after hend, Context.after_concat]
  rfl

theorem Led.take (h : v.Led lx) (hend : v.current.tag ≠ .endOfInput)
    (hnext : v.lexer.next = (.ok t, lx')) : (v.after t lx').Led lx := by
  obtain ⟨first, read, cs, hfirst, htokens, hheard, hserves⟩ := h
  refine ⟨first, read ++ [(v.current, cs)], lx'.comments, ?_, ?_, ?_, fun ts hts => ?_⟩
  · rw [tokens_after hend, after, List.reverse_cons, hfirst, List.cons_append]
  · rw [tokens_after hend, List.map_append, htokens]
    rfl
  · simp [after, hheard]
  · rw [List.append_assoc]
    exact hserves _ (.take hend hnext hts)

theorem Led.again (h : v.Led lx) (hslash : v.current.isSlash = true)
    (hrescan : v.lexer.rescan v.current = (.ok t, lx')) : (v.again t lx').Led lx := by
  obtain ⟨first, read, cs, hfirst, htokens, hheard, hserves⟩ := h
  exact ⟨first, read, cs, hfirst, htokens, hheard,
    fun ts hts => hserves ts (.again hslash hrescan hts)⟩

theorem Fair.take {headers' : List Bool} (h : v.Fair lx headers)
    (hend : v.current.tag ≠ .endOfInput) (hfits : v.context.Fits v.current)
    (hheaders : (byContext.note v.context v.current).headers = headers')
    (hnext : v.lexer.next = (.ok t, lx')) : (v.after t lx').Fresh lx headers' := by
  refine ⟨⟨?_, ?_, h.led.take hend hnext⟩, Lexer.next_tag hnext⟩
  · rw [tokens_after hend]
    exact Context.along_concat.mpr ⟨h.fits, hfits⟩
  · rw [context_after hend, hheaders]

/-- Behind a token that an operand can stand behind. -/
theorem Fair.before (h : v.Fair lx headers) (htag : v.current.tag.isOperator = true)
    (hfits : v.current.followsOperand = true → v.context.ended = true)
    (hnext : v.lexer.next = (.ok t, lx')) : (v.after t lx').Before lx headers := by
  obtain ⟨hprecedes, hend, hopen, hclose⟩ := Token.isOperator_tag htag
  have hpattern : v.current.tag = .regExp → v.context.begins = true := fun hregExp => by
    simp [Token.precedesOperand, hregExp] at hprecedes
  have hnote := Context.note_plain (c := v.context) hopen hclose
  refine ⟨h.take hend ⟨hfits, hpattern⟩ (by rw [hnote, h.headers]) hnext, fun _ => ?_⟩
  rw [context_after hend, hnote, Context.begins, Option.all_some, hprecedes, Bool.or_true]

/-- Behind a token that ends an operand. -/
theorem Fair.behind (h : v.Fair lx headers) (hends : v.current.endsOperand = true)
    (hclose : v.current.tag ≠ .rightParen)
    (hpattern : v.current.tag = .regExp → v.context.begins = true)
    (hnext : v.lexer.next = (.ok t, lx')) : (v.after t lx').Behind lx headers := by
  obtain ⟨hfollows, hend, hopen⟩ := Token.endsOperand_tag hends
  have hfits : v.current.followsOperand = true → v.context.ended = true := by simp [hfollows]
  have hnote := Context.note_plain (c := v.context) hopen hclose
  refine ⟨h.take hend ⟨hfits, hpattern⟩ (by rw [hnote, h.headers]) hnext, ?_⟩
  rw [context_after hend, hnote, Context.ended, Option.any_some, hends]

/-- Behind an opening parenthesis. -/
theorem Fair.opened (h : v.Fair lx headers) (htag : v.current.tag = .leftParen)
    (hnext : v.lexer.next = (.ok t, lx')) :
    (v.after t lx').Before lx (v.context.previous.any opensHeader :: headers) := by
  have hend : v.current.tag ≠ .endOfInput := by simp [htag]
  have hnote := Context.note_open (c := v.context) htag
  refine ⟨h.take hend ⟨?_, ?_⟩ (by rw [hnote, h.headers]) hnext, fun _ => ?_⟩
  · simp [Token.followsOperand, htag]
  · simp [htag]
  · rw [context_after hend, hnote]
    simp [Context.begins, Token.precedesOperand, htag]

/-- Behind a closing parenthesis. A statement can begin there if it closes a header. -/
theorem Fair.closed {b : Bool} (h : v.Fair lx (b :: headers)) (htag : v.current.tag = .rightParen)
    (hnext : v.lexer.next = (.ok t, lx')) : (v.after t lx').Behind lx headers
      ∧ (b = true → (v.after t lx').Before lx headers) := by
  have hend : v.current.tag ≠ .endOfInput := by simp [htag]
  have hnote := Context.note_close (c := v.context) htag
  have hfresh : (v.after t lx').Fresh lx headers := by
    refine h.take hend ⟨?_, ?_⟩ (by rw [hnote, h.headers]; rfl) hnext
    · simp [Token.followsOperand, htag]
    · simp [htag]
  refine ⟨⟨hfresh, ?_⟩, fun hb => ⟨hfresh, fun _ => ?_⟩⟩
  · rw [context_after hend, hnote]
    simp [Context.ended, Token.endsOperand, htag]
  · rw [context_after hend, hnote, h.headers, hb]
    simp [Context.begins]

end Sight

open Sight (Fair Fresh Before Behind Done AtHeader)

/-! ## Rules for the shape of a reading -/

/-- From a place of a kind, a reading that ends well has come to a place of another kind. -/
def Moves {α : Type} (P : Sight → Prop) (m : Reading α) (Q : α → Sight → Prop) : Prop :=
  ∀ s, P s.sight → Ensures False m s fun a t => Q a t.sight

/-- What the turn of a loop leads to, to the next turn or for good. -/
def Turn.Holds {α β : Type} (I : Sight → Prop) (Q : β → Sight → Prop) : Turn α β → Sight → Prop
  | .again _, v => I v
  | .done b, v => Q b v

section
variable {α β : Type} {P P' I : Sight → Prop} {Q Q' : α → Sight → Prop} {R : β → Sight → Prop}
  {m : Reading α} {f : α → Reading β} {tag : Tag} {what : Expected}

theorem Moves.bind (hm : Moves P m Q) (hf : ∀ a, Moves (Q a) (f a) R) : Moves P (m >>= f) R :=
  fun s hs => (hm s hs).bind fun a t ht => hf a t ht

theorem Moves.mono (h : Moves P m Q) (hP : ∀ v, P' v → P v) (hQ : ∀ a v, Q a v → Q' a v) :
    Moves P' m Q' :=
  fun s hs => (h s (hP _ hs)).mono fun a _ ht => hQ a _ ht

theorem Moves.start (h : Moves P m Q) (hP : ∀ v, P' v → P v) : Moves P' m Q :=
  h.mono hP fun _ _ h => h

theorem Moves.stop (h : Moves P m Q) (hQ : ∀ a v, Q a v → Q' a v) : Moves P m Q' :=
  h.mono (fun _ h => h) hQ

theorem Moves.and (h : Moves P m Q) (h' : Moves P m Q') : Moves P m fun a v => Q a v ∧ Q' a v :=
  fun s hs => (h s hs).and (h' s hs)

theorem moves_pure {a : α} (h : ∀ v, P v → Q a v) : Moves P (pure a) Q :=
  fun s hs => ensures_pure (h s.sight hs)

theorem moves_fail (p : Problem) : Moves P (fail p) Q := fun _ _ => ensures_fail

theorem moves_failAt (line : Nat) (p : Problem) : Moves P (failAt line p) Q :=
  fun _ _ => ensures_failAt

theorem moves_unexpected : Moves P unexpected Q := fun _ _ => ensures_unexpected

theorem Moves.ite {b : Bool} {yes no : Reading α} (hyes : b = true → Moves P yes Q)
    (hno : b = false → Moves P no Q) : Moves P (if b = true then yes else no) Q := by
  cases b with
  | true => exact hyes rfl
  | false => exact hno rfl

/-- A question about the state. What is known of its place holds of what comes behind. -/
theorem moves_get {f : State → Reading α}
    (h : ∀ s, P s.sight → Moves (fun v => v = s.sight) (f s) Q) : Moves P (get >>= f) Q :=
  fun s hs => ensures_get (h s hs s rfl)

theorem Moves.here {s : State} (h : Moves P m Q) (hs : P s.sight) :
    Moves (fun v => v = s.sight) m Q :=
  h.start fun _ hv => hv.symm ▸ hs

theorem moves_exists {γ : Type} {P : γ → Sight → Prop} (h : ∀ c, Moves (P c) m Q) :
    Moves (fun v => ∃ c, P c v) m Q :=
  fun s ⟨c, hs⟩ => h c s hs

/-- A step that does not look at the text stays where it is. -/
theorem Preserves.moves (h : Preserves State.sight m) : Moves P m fun _ => P :=
  fun s hs => (h s).mono fun _ _ ht => ht.symm ▸ hs

theorem Blind.moves (h : Blind m) : Moves P m fun _ => P :=
  Preserves.moves fun _ => ensures_iff.mpr fun _ _ hm => h.still hm

/-- The last step, where it does not look at the text. -/
theorem Blind.stays (h : Blind m) (hQ : ∀ a v, P v → Q a v) : Moves P m Q := h.moves.stop hQ

theorem moves_iterate {step : α → Reading (Turn α β)}
    (h : ∀ a, Moves I (step a) (Turn.Holds I R)) (n : Nat) (a : α) :
    Moves I (iterate step n a) R := fun s hs =>
  ensures_iterate (I := fun _ t => I t.sight) (fun a t ht => (h a t ht).mono fun turn _ hturn => by
    cases turn <;> exact hturn) n hs

theorem moves_ifCheck {yes no : Reading β}
    (hyes : Moves (fun v => P v ∧ v.current.tag = tag) yes R)
    (hno : Moves (fun v => P v ∧ v.current.tag ≠ tag) no R) :
    Moves P (check tag >>= fun b => if b = true then yes else no) R := fun s hs =>
  ensures_ifCheck (fun htag => hyes s ⟨hs, htag⟩) fun htag => hno s ⟨hs, htag⟩

/-- A reading in a state that was changed for it, where neither the change nor the one back has to
do with the text. -/
theorem moves_within (enter : State → State) (leave : State → State → State) (hm : Moves P m Q)
    (hf : ∀ a, Moves (Q a) (f a) R)
    (hsight : ∀ s t, (enter s).sight = s.sight ∧ (leave s t).sight = t.sight) :
    Moves P (within enter leave m f) R := by
  intro s hs
  refine ensures_iff.mpr fun b u hrun => ?_
  obtain ⟨a, t, hmid, hend⟩ := within_iff.mp hrun
  have ht : Q a t.sight := ensures_ok (hm (enter s) ((hsight s t).1.symm ▸ hs)) hmid
  exact ensures_ok (hf a (leave s t) ((hsight s t).2.symm ▸ ht)) hend

theorem moves_withTarget {id : NodeId} {isLoop : Bool} {pending : List NodeId}
    (h : Moves P m Q) : Moves P (withTarget id isLoop pending m) Q :=
  moves_within (State.within · id isLoop pending)
    (fun s t => { t with targets := s.targets, labels := s.labels }) h
    (fun _ => moves_pure fun _ h => h) fun _ _ => ⟨rfl, rfl⟩

theorem moves_inFunction {id : NodeId} (h : Moves P m Q) :
    Moves P (inFunction id m) fun r => Q r.1 := by
  intro s hs
  refine ensures_iff.mpr fun r u hrun => ?_
  obtain ⟨a, t, hmid, hend⟩ := inFunction_iff.mp hrun
  obtain ⟨rfl, rfl⟩ := Prod.mk.inj hend
  exact ensures_iff.mp (h (s.inside id) hs) a t hmid

/-! ## Tokens -/

theorem moves_advance {Q : Token → Sight → Prop}
    (h : ∀ v t lx, P v → v.lexer.next = (.ok t, lx) → Q v.current (v.after t lx)) :
    Moves P advance Q := by
  intro s hs
  refine ensures_iff.mpr fun a u hrun => ?_
  obtain ⟨t, lx, hnext, hr⟩ := advance_inv hrun
  obtain ⟨rfl, rfl⟩ := Prod.mk.inj hr
  exact h s.sight t lx hs hnext

/-- Takes a token that must have a tag. -/
theorem moves_expect {Q : Token → Sight → Prop}
    (h : Moves (fun v => P v ∧ v.current.tag = tag) advance Q) : Moves P (expect tag what) Q :=
  moves_ifCheck h (moves_fail _)

/-- Takes a token if it has a tag. -/
theorem moves_ifAccept {R' : Sight → Prop} {yes no : Reading β}
    (h : Moves (fun v => P v ∧ v.current.tag = tag) advance fun _ => R') (hyes : Moves R' yes R)
    (hno : Moves P no R) :
    Moves P (accept tag >>= fun b => if b = true then yes else no) R := by
  rw [accept_bind]
  exact moves_ifCheck (h.bind fun _ => hyes) (hno.start fun _ h => h.1)

end

section
variable {β : Type} {lx : Lexer} {headers : List Bool} {tag : Tag} {what : Expected}
  {R : β → Sight → Prop}

theorem moves_operator (htag : tag.isOperator = true) :
    Moves (fun v => v.Behind lx headers ∧ v.current.tag = tag) advance
      fun _ => Before lx headers := by
  refine moves_advance fun v t lx' ⟨hv, hcurrent⟩ hnext => ?_
  exact hv.before (hcurrent ▸ htag) (fun _ => hv.ended) hnext

theorem moves_opening (htag : tag.isOpening = true) :
    Moves (fun v => v.Fresh lx headers ∧ v.current.tag = tag) advance
      fun _ => Before lx headers := by
  refine moves_advance fun v t lx' ⟨hv, hcurrent⟩ hnext => ?_
  obtain ⟨hoperator, hfollows⟩ := Token.isOpening_tag (t := v.current) (hcurrent ▸ htag)
  exact hv.before hoperator (by simp [hfollows]) hnext

theorem moves_closing (htag : tag.isClosing = true) :
    Moves (fun v => v.Fresh lx headers ∧ v.current.tag = tag) advance
      fun _ => Behind lx headers := by
  refine moves_advance fun v t lx' ⟨hv, hcurrent⟩ hnext => ?_
  obtain ⟨hends, hclose, hpattern⟩ := Token.isClosing_tag (t := v.current) (hcurrent ▸ htag)
  exact hv.behind hends hclose (fun h => absurd h hpattern) hnext

/-- A token that is taken where it stands. -/
theorem moves_accept (htag : tag.isOpening = true) :
    Moves (Before lx headers) (accept tag) fun _ => Before lx headers := by
  refine moves_ifCheck ?_ (moves_pure fun _ h => h.1)
  exact ((moves_opening htag).start fun _ h => ⟨h.1.toFresh, h.2⟩).bind fun _ =>
    (blind_pure _).moves

/-- A word before the header of a statement. -/
theorem moves_headWord (htag : tag ∈ [.kwIf, .kwWhile, .kwFor, .kwWith]) :
    Moves (fun v => v.Fresh lx headers ∧ v.current.tag = tag) advance
      fun _ => AtHeader lx headers := by
  refine moves_advance fun v t lx' ⟨hv, hcurrent⟩ hnext => ?_
  have hword : ∀ tag ∈ [Tag.kwIf, .kwWhile, .kwFor, .kwWith],
      (tag == .kwIf || tag == .kwWhile || tag == .kwFor || tag == .kwWith) = true
        ∧ tag.isOpening = true := by
    decide
  have hheads : opensHeader v.current = true ∧ v.current.tag.isOpening = true := by
    rw [opensHeader, hcurrent]
    exact hword tag htag
  obtain ⟨hoperator, hfollows⟩ := Token.isOpening_tag hheads.2
  obtain ⟨-, hend, -⟩ := Token.isOperator_tag hoperator
  refine ⟨(hv.before hoperator (by simp [hfollows]) hnext).toFresh, ?_⟩
  rw [Sight.context_after hend, Context.note_previous, Option.any_some, hheads.1]

/-- A word or a brace that ends an operand, and that an operand can stand behind. -/
theorem moves_either (hopening : tag.isOpening = true) (hclosing : tag.isClosing = true) :
    Moves (fun v => v.Fresh lx headers ∧ v.current.tag = tag) advance
      fun _ v => v.Before lx headers ∧ v.Behind lx headers :=
  (moves_opening hopening).and (moves_closing hclosing)

theorem moves_openHeader : Moves (AtHeader lx headers) (expect .leftParen what)
    fun _ => Before lx (true :: headers) := by
  refine moves_expect (moves_advance fun v t lx' ⟨hv, hcurrent⟩ hnext => ?_)
  have hopened := hv.opened hcurrent hnext
  rwa [hv.heads] at hopened

theorem moves_closeHeader : Moves (Fresh lx (true :: headers)) (expect .rightParen what)
    fun _ => Before lx headers :=
  moves_expect (moves_advance fun _ _ _ ⟨hv, hcurrent⟩ hnext => (hv.closed hcurrent hnext).2 rfl)

theorem moves_closeParen {b : Bool} : Moves (Fresh lx (b :: headers)) (expect .rightParen what)
    fun _ => Behind lx headers :=
  moves_expect (moves_advance fun _ _ _ ⟨hv, hcurrent⟩ hnext => (hv.closed hcurrent hnext).1)

/-- A parenthesis that may open a header or not. -/
theorem moves_leftParen : Moves (fun v => v.Fresh lx headers ∧ v.current.tag = .leftParen) advance
    fun _ v => ∃ b, v.Before lx (b :: headers) :=
  moves_advance fun _ _ _ ⟨hv, hcurrent⟩ hnext => ⟨_, hv.opened hcurrent hnext⟩

/-- A slash before an operand is read again in its place. -/
theorem moves_rescan :
    Moves (fun v => v.Before lx headers ∧ v.current.isSlash = true) rescan
      fun _ v => v.Fair lx headers ∧ v.current.tag = .regExp ∧ v.context.begins = true := by
  rintro s ⟨hs, hslash⟩
  refine ensures_iff.mpr fun _ u hrun => ?_
  obtain ⟨t, lx', hrescan, hr⟩ := rescan_inv hrun
  obtain ⟨-, rfl⟩ := Prod.mk.inj hr
  exact ⟨⟨hs.fits, hs.headers, hs.led.again hslash hrescan⟩, Lexer.rescan_tag hrescan,
    hs.begins hslash⟩

theorem moves_regExp :
    Moves (fun v => v.Fair lx headers ∧ v.current.tag = .regExp ∧ v.context.begins = true) advance
      fun _ => Behind lx headers := by
  refine moves_advance fun v t lx' ⟨hv, htag, hbegins⟩ hnext => ?_
  exact hv.behind (by simp [Token.endsOperand, htag]) (by simp [htag]) (fun _ => hbegins) hnext

/-! ## Names and the ends of statements -/

theorem moves_takeComments : Moves (Before lx headers) takeComments fun _ => Before lx headers :=
  fun s hs => ensures_of_ok (rfl : takeComments s = .ok (s.comments, { s with comments := [] }))
    ⟨⟨⟨hs.fits, hs.headers, hs.led⟩, hs.unread⟩, hs.begins⟩

theorem moves_omitSemicolon :
    Moves (Before lx headers) omitSemicolon fun _ => Before lx headers := fun s hs =>
  ensures_of_ok (rfl : omitSemicolon s
      = .ok ((), { s with omitted := s.omitted ++ [s.previousStop] }))
    ⟨⟨⟨hs.fits, hs.headers, hs.led⟩, hs.unread⟩, hs.begins⟩

theorem moves_warn {P : Sight → Prop} (c : Concern) (line : Nat) :
    Moves P (warn c line) fun _ => P :=
  Preserves.moves (preserves_modify fun _ => rfl)

theorem moves_endStatement :
    Moves (Before lx headers) endStatement fun _ => Before lx headers := by
  refine moves_get fun s hs => .ite (fun htag => ?_) fun _ => .ite (fun _ => ?_) fun _ => ?_
  · exact ((moves_opening rfl).bind fun _ => (blind_pure _).moves).here
      ⟨hs.toFresh, beq_iff_eq.mp htag⟩
  · exact (moves_omitSemicolon.bind fun _ => moves_warn _ _).here hs
  · exact moves_fail _

theorem moves_declaredName : Moves (Fresh lx headers) (declaredName what)
    fun _ v => v.Before lx headers ∧ v.Behind lx headers := by
  refine moves_get fun s hs => ?_
  dsimp only
  split
  · next htag =>
    exact ((moves_either rfl rfl).bind fun t => (blind_warnOfKeyword _ _).moves.bind fun _ =>
      (blind_pure _).moves).here ⟨hs, htag⟩
  · exact moves_fail _
  · exact moves_fail _

end

end Grammar
end ScriptPress
