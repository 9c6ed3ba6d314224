import ScriptPress.Proofs.Insertion.Text
import ScriptPress.Proofs.Reading.Ensures

/-! # Two readings of a script

A script is read a second time with semicolons put into its text, one behind each token that ended
a statement without one. The second reading is in the same state as the first, up to what only the
lexer sees, except behind a token that got a semicolon: there it sees the semicolon where the first
reading sees the token after it.
-/
namespace ScriptPress.Grammar

/-! ## What a state sees of its text -/

/-- The part of a state that only tokens and the ends of statements change. -/
structure Sight where
  lexer : Lexer
  current : Token
  previousLine : Nat
  previousStop : Nat
  comments : List String
  heard : List String
  taken : List Token
  omitted : List Nat

namespace State

def sight (s : State) : Sight :=
  ⟨s.lexer, s.current, s.previousLine, s.previousStop, s.comments, s.heard, s.taken,
    s.omitted⟩

/-- The state with another sight of its text. -/
def seeing (s : State) (v : Sight) : State :=
  { s with
    lexer := v.lexer, current := v.current, previousLine := v.previousLine
    previousStop := v.previousStop, comments := v.comments, heard := v.heard, taken := v.taken
    omitted := v.omitted }

/-- The state without the concerns about missing semicolons. -/
def hushed (s : State) : State :=
  { s with concerns := s.concerns.filter (·.1 != .missingSemicolon) }

end State

namespace Sight
variable {places : List Nat} {v k : Sight} {t : Token} {lx : Lexer}

/-- What is seen after the current token was taken and the lexer went on to another. -/
def after (v : Sight) (t : Token) (lx : Lexer) : Sight where
  lexer := { lx with comments := [] }
  current := t
  previousLine := v.current.line
  previousStop := v.current.stop
  comments := v.comments ++ lx.comments.map Comment.text
  heard := v.heard ++ lx.comments.map Comment.text
  taken := v.current :: v.taken
  omitted := v.omitted

/-- What is seen after the current token was read again. -/
def again (v : Sight) (t : Token) (lx : Lexer) : Sight := { v with lexer := lx, current := t }

/-- A place that is not before the end of the current token. -/
def Later (v : Sight) (p : Nat) : Prop := v.current.tag ≠ .endOfInput ∧ v.current.stop ≤ p

/-- What holds of where the tokens stand. -/
structure Placed (v : Sight) : Prop where
  position : v.lexer.position = v.current.stop
  comments : v.lexer.comments = []
  start : v.previousStop ≤ v.current.start
  stop : v.current.start ≤ v.current.stop
  token : v.current.tag ≠ .endOfInput → v.current.start < v.current.stop ∧ v.lexer.fresh = false
  slash : v.current.isSlash = true →
    v.lexer.position = v.current.start + (if v.current.tag = .assign then 2 else 1)
  omitted : ∀ p ∈ v.omitted, p ≤ v.previousStop

/-- Of the places that get a semicolon, those are known where one was left out so far, and the
others are still to come. -/
structure Fits (places : List Nat) (v : Sight) : Prop where
  noted : ∀ p ∈ v.omitted, p ∈ places
  ahead : ∀ p ∈ places, p ∈ v.omitted ∨ p = v.previousStop ∨ v.Later p

/-- The last token taken gets a semicolon, and the statement it ends is still being read. -/
def Owes (places : List Nat) (v : Sight) : Prop :=
  v.previousStop ∈ places ∧ v.previousStop ∉ v.omitted

theorem Placed.after (hv : v.Placed) (h : v.lexer.next = (.ok t, lx)) : (v.after t lx).Placed := by
  have hspans := Lexer.next_spans h
  have hgap : v.current.stop ≤ t.start := hv.position ▸ hspans.gap
  exact ⟨hspans.position, rfl, hgap, hspans.stop, hspans.token,
    fun hslash => hspans.position.trans (hspans.slash hslash),
    fun p hp => (hv.omitted p hp).trans (hv.start.trans hv.stop)⟩

/-- Behind a token that was taken no semicolon was left out yet. -/
theorem Placed.behind (hv : v.Placed) (hne : v.current.tag ≠ .endOfInput) :
    (v.after t lx).previousStop ∉ (v.after t lx).omitted := fun hin => by
  have hle : v.current.stop ≤ v.previousStop := hv.omitted _ hin
  have hlt := (hv.token hne).1
  have hstart := hv.start
  omega

/-- The places fit before a token was taken, and none was owed a semicolon there. -/
theorem Fits.before (hv : v.Placed) (hne : v.current.tag ≠ .endOfInput)
    (h : v.lexer.next = (.ok t, lx)) (hfits : (v.after t lx).Fits places) :
    v.Fits places ∧ ¬ v.Owes places := by
  have hlt := (hv.token hne).1
  have hstart := hv.start
  have hahead : ∀ p ∈ places, p ∈ v.omitted ∨ v.Later p := by
    intro p hp
    rcases hfits.ahead p hp with hin | heq | ⟨hne', hle⟩
    · exact .inl hin
    · exact .inr ⟨hne, heq ▸ Nat.le_refl _⟩
    · have hgap : v.current.stop ≤ t.start := hv.position ▸ (Lexer.next_spans h).gap
      have hlt' := ((hv.after h).token hne').1
      exact .inr ⟨hne, hgap.trans (hlt'.le.trans hle)⟩
  refine ⟨⟨hfits.noted, fun p hp => (hahead p hp).imp_right .inr⟩, fun ⟨hin, hnot⟩ => ?_⟩
  have hle := ((hahead _ hin).resolve_left hnot).2
  omega

/-- Another sight of the same place, in the text with semicolons. -/
structure Level (places : List Nat) (v k : Sight) : Prop where
  current : ∃ start stop, k.current = v.current.placed start stop
  lexer : v.current.tag ≠ .endOfInput →
    ∃ p, k.lexer = v.lexer.before (markedFrom places v.lexer.position v.lexer.rest) p
  dialect : k.lexer.dialect = v.lexer.dialect
  comments : k.comments = v.comments

/-- Another sight with a semicolon before the same place. -/
structure Faces (places : List Nat) (v k : Sight) : Prop where
  semicolon : k.current.tag = .semicolon
  dialect : k.lexer.dialect = v.lexer.dialect
  behind : ∃ t lx, k.lexer.next = (.ok t, lx) ∧ Level places v (k.after t lx)

/-- What the second reading sees when the first one sees `v`. -/
def Beside (places : List Nat) (v k : Sight) : Prop :=
  ¬ v.Owes places ∧ Level places v k ∨ v.Owes places ∧ Faces places v k

theorem Beside.level (h : Beside places v k) (hv : ¬ v.Owes places) : Level places v k :=
  h.elim And.right fun h => absurd h.1 hv

theorem Beside.dialect (h : Beside places v k) : k.lexer.dialect = v.lexer.dialect :=
  h.elim (fun h => h.2.dialect) fun h => h.2.dialect

/-- The next token is read from the text with semicolons, wherever a lexer stands in it. -/
theorem Level.after (hv : v.Placed) (h : v.lexer.next = (.ok t, lx))
    (hfits : (v.after t lx).Fits places)
    {p : Nat} (hk : k.lexer = v.lexer.before (marked places v.lexer.position v.lexer.rest) p)
    (hcomments : k.comments = v.comments) :
    ∃ t' lx', k.lexer.next = (.ok t', lx') ∧ Level places (v.after t lx) (k.after t' lx') := by
  have hclear : ∀ q ∈ places, q ≤ v.lexer.position ∨ t.tag ≠ .endOfInput ∧ t.stop ≤ q := by
    intro q hq
    rcases hfits.ahead q hq with hin | heq | hlater
    · exact .inl (hv.position ▸ (hv.omitted q hin).trans (hv.start.trans hv.stop))
    · exact .inl (hv.position ▸ heq.le)
    · exact .inr hlater
  obtain ⟨start, stop, rest, position, comments, hnext, hrest, hsame⟩ :=
    Lexer.next_marked h hclear p
  refine ⟨t.placed start stop, { lx with rest, position, comments }, hk ▸ hnext,
    ⟨start, stop, rfl⟩, fun hne => ⟨position, ?_⟩, rfl, ?_⟩
  · obtain rfl := hrest hne
    rfl
  · change k.comments ++ _ = v.comments ++ _
    rw [hcomments, hsame]

/-- Taking a token keeps both readings together: the second one comes to a semicolon if the token
gets one. -/
theorem Level.take (hv : v.Placed) (hne : v.current.tag ≠ .endOfInput)
    (h : v.lexer.next = (.ok t, lx)) (hfits : (v.after t lx).Fits places)
    (hk : Level places v k) :
    ∃ t' lx', k.lexer.next = (.ok t', lx') ∧ Beside places (v.after t lx) (k.after t' lx') := by
  have hnot : (v.after t lx).previousStop ∉ (v.after t lx).omitted := hv.behind hne
  have hstop : (v.after t lx).previousStop = v.lexer.position := hv.position.symm
  obtain ⟨p, hlexer⟩ := hk.lexer hne
  by_cases hin : v.lexer.position ∈ places
  · have howes : (v.after t lx).Owes places := ⟨hstop ▸ hin, hnot⟩
    rw [markedFrom_some hin] at hlexer
    have hrest : k.lexer.rest = ';' :: marked places v.lexer.position v.lexer.rest := by
      rw [hlexer]
      rfl
    have hfresh : k.lexer.fresh = false := hlexer ▸ (hv.token hne).2
    obtain ⟨s, p', hnext, hs⟩ := Lexer.next_semicolon hrest hfresh
    have hlx :
        { k.lexer.before (marked places v.lexer.position v.lexer.rest) p' with comments := [] }
        = v.lexer.before (marked places v.lexer.position v.lexer.rest) p' := by
      rw [hlexer, ← hv.comments]
      rfl
    have hcomments : k.comments ++ k.lexer.comments.map Comment.text = v.comments := by
      have hnone : k.lexer.comments = [] := hlexer ▸ hv.comments
      rw [hnone, hk.comments]
      exact List.append_nil _
    exact ⟨s, _, hnext, .inr ⟨howes, hs, (Lexer.next_read h).like.1 ▸ hk.dialect,
      Level.after hv h hfits hlx hcomments⟩⟩
  · rw [markedFrom_none hin] at hlexer
    obtain ⟨t', lx', hnext, hlevel⟩ := Level.after hv h hfits hlexer hk.comments
    exact ⟨t', lx', hnext, .inl ⟨fun howes => hin (hstop ▸ howes.1), hlevel⟩⟩

/-! ## Reading a token again -/

theorem Placed.again (hv : v.Placed) (hslash : v.current.isSlash = true)
    (h : v.lexer.rescan v.current = (.ok t, lx)) : (v.again t lx).Placed := by
  have hspans := Lexer.rescan_spans h (hv.slash hslash)
  have hne : v.current.tag ≠ .endOfInput := by
    intro htag
    simp [Token.isSlash, htag] at hslash
  have hlt := hspans.stop.2
  rw [← hspans.start] at hlt
  refine ⟨hspans.position, hspans.comments.trans hv.comments, ?_, hlt.le,
    fun _ => ⟨hlt, hspans.fresh.trans (hv.token hne).2⟩, fun hagain => ?_, hv.omitted⟩
  · exact hv.start.trans hspans.start.ge
  · have hagain : t.isSlash = true := hagain
    simp [Token.isSlash, hspans.tag] at hagain

/-- The places fit before a slash was read again. -/
theorem Fits.unread (hv : v.Placed) (hslash : v.current.isSlash = true)
    (h : v.lexer.rescan v.current = (.ok t, lx)) (hfits : (v.again t lx).Fits places) :
    v.Fits places := by
  have hspans := Lexer.rescan_spans h (hv.slash hslash)
  have hne : v.current.tag ≠ .endOfInput := by
    intro htag
    simp [Token.isSlash, htag] at hslash
  refine ⟨hfits.noted, fun p hp => ?_⟩
  rcases hfits.ahead p hp with hin | heq | hlater
  · exact .inl hin
  · exact .inr (.inl heq)
  · exact .inr (.inr ⟨hne, hv.position ▸ hspans.stop.1.trans hlater.2⟩)

theorem Level.again (hv : v.Placed) (hslash : v.current.isSlash = true)
    (h : v.lexer.rescan v.current = (.ok t, lx)) (hfits : (v.again t lx).Fits places)
    (hk : Level places v k) :
    ∃ t' lx', k.lexer.rescan k.current = (.ok t', lx')
      ∧ Level places (v.again t lx) (k.again t' lx') := by
  have hspans := Lexer.rescan_spans h (hv.slash hslash)
  have hne : v.current.tag ≠ .endOfInput := by
    intro htag
    simp [Token.isSlash, htag] at hslash
  have hclear : ∀ q ∈ places, q < v.lexer.position ∨ t.stop ≤ q := by
    intro q hq
    have hlt := (hv.token hne).1
    have hstart := hv.start
    have hposition := hv.position
    rcases hfits.ahead q hq with hin | heq | hlater
    · have hle : q ≤ v.previousStop := hv.omitted q hin
      exact .inl (by omega)
    · have heq : q = v.previousStop := heq
      exact .inl (by omega)
    · exact .inr hlater.2
  obtain ⟨start, stop, hcurrent⟩ := hk.current
  obtain ⟨p, hlexer⟩ := hk.lexer hne
  obtain ⟨start', stop', position, hrescan⟩ :=
    Lexer.rescan_marked h (hv.slash hslash) hclear p start stop
  refine ⟨_, _, hlexer ▸ hcurrent ▸ hrescan, ⟨start', stop', rfl⟩, fun _ => ⟨position, rfl⟩, rfl,
    hk.comments⟩

end Sight
end ScriptPress.Grammar
