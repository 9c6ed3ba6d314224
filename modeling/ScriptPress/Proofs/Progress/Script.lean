import ScriptPress.Proofs.Insertion.Script
import ScriptPress.Proofs.Progress.Statement
import Mathlib.Logic.Function.Iterate

/-! # Readings that finish

The depth that a script is read with, and the turns its loops may take, are bounds that are never
met: whatever stands behind them, and however far they are put, the reading does the same.
-/
namespace ScriptPress
namespace Grammar
variable {n : Nat} {g g' : Grammar}

theorem Concurring.step (hg : Concurring n g g') : Concurring (n + 1) (step g) (step g') :=
  ⟨Nat.succ_le_succ hg.bound, Nat.succ_le_succ hg.bound', past_statementOf hg,
    past_assignmentOf hg, past_expressionOf hg, past_unaryOf hg, past_memberOf hg⟩

/-- Where nothing is left to read, no reader is called. -/
theorem concurring_zero (g g' : Grammar) : Concurring 0 g g' := by
  have hnone : ∀ m m' : Reading Tree, Past 0 m m' :=
    fun _ _ _ hs => absurd hs.left (Nat.not_lt_zero _)
  exact ⟨Nat.zero_le _, Nat.zero_le _, fun _ => hnone _ _, fun _ => hnone _ _, fun _ => hnone _ _,
    hnone _ _, fun _ => hnone _ _⟩

/-- With enough levels above them, it makes no difference what stands below. -/
theorem concurring_iterate (n : Nat) (base base' : Grammar) :
    Concurring n (Grammar.step^[n] base) (Grammar.step^[n] base') := by
  induction n with
  | zero => exact concurring_zero _ _
  | succ n ih =>
    rw [Function.iterate_succ_apply', Function.iterate_succ_apply']
    exact ih.step

theorem nested_succ (depth : Nat) : nested (depth + 1) = Grammar.step (nested depth) := by
  cases depth <;> rfl

theorem nested_eq (depth : Nat) : nested depth = Grammar.step^[depth] (nested 0) := by
  induction depth with
  | zero => rfl
  | succ depth ih => rw [nested_succ, ih, Function.iterate_succ_apply']

theorem concurring_nested {depth : Nat} (hn : n ≤ depth) (base : Grammar) :
    Concurring n (nested n) (Grammar.step^[depth] base) := by
  obtain ⟨more, rfl⟩ := Nat.exists_eq_add_of_le hn
  rw [nested_eq, Function.iterate_add_apply]
  exact concurring_iterate n _ _

/-- A call of a reader of a grammar. -/
inductive Call where
  | statement (top : Bool)
  | block (construct : String)
  | assignment (noIn : Bool)
  | expression (noIn : Bool)
  | unary
  | member (allowCall : Bool)

def Call.of (g : Grammar) : Call → Reading Tree
  | statement top => g.statement top
  | block construct => g.block construct
  | assignment noIn => g.assignment noIn
  | expression noIn => g.expression noIn
  | unary => g.unary
  | member allowCall => g.member allowCall

theorem Concurring.call (hg : Concurring n g g') (call : Call) :
    Past n (call.of g) (call.of g') := by
  cases call with
  | statement top => exact hg.statement top
  | block construct => exact (past_block hg construct).lower (Nat.le_succ n)
  | assignment noIn => exact hg.assignment noIn
  | expression noIn => exact hg.expression noIn
  | unary => exact hg.unary
  | member allowCall => exact hg.member allowCall

/-- The loops of a grammar, each by what one turn of it does. -/
inductive IsLoop (g : Grammar) : {α β : Type} → (α → Reading (Turn α β)) → Prop
  | statements (ends : Token → Bool) (top : Bool) : IsLoop g (untilTurn ends (g.statement top))
  | clauses : IsLoop g g.clauseTurn
  | catches (ends : Token → Bool) : IsLoop g (untilTurn ends g.catchClause)
  | elements : IsLoop g g.arrayElement
  | properties : IsLoop g g.objectProperty
  | arguments (noIn : Bool) : IsLoop g (separatedTurn (g.assignment noIn))
  | parameters :
      IsLoop g (separatedTurn (declaredName .formalParameter >>= fun name => pure name.1))
  | declarations (noIn : Bool) : IsLoop g (separatedTurn (g.declaration noIn))
  | accesses (allowCall : Bool) : IsLoop g (g.access allowCall)
  | operations (noIn : Bool) (level levels : Nat) :
      IsLoop g (binaryTurn noIn level (g.binaryOf noIn levels))
  | sequence (noIn : Bool) : IsLoop g (sequenceTurn (g.assignmentOf noIn))

/-- Each turn that asks for another one has taken a token. -/
theorem IsLoop.concurs {α β : Type} {step : α → Reading (Turn α β)} (h : g.IsLoop step)
    (hg : Concurring n g g) (a : α) : Concurs n Turn.IsAgain (step a) (step a) := by
  have hle := Nat.le_succ n
  cases h with
  | statements ends top => exact concurs_untilTurn ends (hg.statement top) a
  | clauses => exact (concurs_clauseTurn hg a).lower hle
  | catches ends => exact concurs_untilTurn ends ((past_catchClause hg).lower hle) a
  | elements => exact concurs_arrayElement hg a
  | properties => exact concurs_objectProperty hg a
  | arguments noIn => exact concurs_separatedTurn (hg.assignment noIn) a
  | parameters => exact concurs_separatedTurn past_parameter a
  | declarations noIn => exact concurs_separatedTurn (past_declaration hg noIn) a
  | accesses allowCall => exact (concurs_access hg allowCall a).lower hle
  | operations noIn level levels =>
    exact concurs_binaryTurn ((past_binaryOf hg noIn levels).lower hle) a
  | sequence noIn => exact concurs_sequenceTurn ((past_assignmentOf hg noIn).lower hle) a

theorem onward_script (hg : Concurring n g g') (name : String) (line : Nat) :
    Onward n (g.script name line) (g'.script name line) := by
  refine onward_advance.bind fun _ => blind_freshId.onward.bind fun id => ?_
  refine (onward_itemsUntil hg _ (hg.statement true) []).bind fun statements => ?_
  refine onward_takeComments.bind fun comments => concurs_ask fun s hs => ?_
  exact onward_pure _ s hs

end Grammar

namespace Script
open Grammar

theorem opening_under (settings : ReadSettings) (text : String) :
    (opening settings text).Under (text.length + 1) := by
  refine ⟨opening_placed, ?_⟩
  have hleft : (opening settings text).sight.left = text.toList.length := Token.left_end rfl
  rw [hleft, String.length_toList]
  exact Nat.lt_succ_self _

/-- Reading comes to an end. A call of the lexer stops behind the token before. The tokens of a
text end with its end or with a problem. Where a depth is more than what is left of the text, a
reader takes a token if it ends well, a loop ends as it would with no bound on its turns, and what
the grammar is at that depth makes no difference, so that no reader is called there. So it is for a
whole script, at any depth beyond the length of its text. -/
theorem read_finishes :
    (∀ text d line keep tokens lx t lx', Lexer.Calls (Lexer.start text d line keep) tokens lx →
      lx.next = (.ok t, lx') → t.tag ≠ .endOfInput → Lexer.lastStop tokens < t.stop)
    ∧ (∀ text d, (CommentRemoval.scan text d).Complete ∧ ∀ fuel, text.length < fuel →
      TokenStream.readFrom (CommentRemoval.reader d) fuel (CommentRemoval.reader d).init
        (Lexer.start text d 1 true) = CommentRemoval.scan text d)
    ∧ (∀ (depth : Nat) (s : State), s.Under depth →
      (∀ call : Call, (∀ tree t, call.of (nested depth) s = .ok (tree, t) →
          s.current.start < t.current.start ∧ t.Under depth)
        ∧ ∀ base, call.of (Grammar.step^[depth] base) s = call.of (nested depth) s)
      ∧ ∀ {α β : Type} (step : α → Reading (Turn α β)), (nested depth).IsLoop step →
        ∀ a, RunsTo step a s ((nested depth).repeatTurns step a s))
    ∧ ∀ settings text, (opening settings text).Under (text.length + 1)
      ∧ ∀ base depth, text.length < depth →
        (Grammar.step^[depth] base).script settings.source settings.startLine
            (opening settings text)
          = (nested (text.length + 1)).script settings.source settings.startLine
            (opening settings text) := by
  refine ⟨fun text d line keep tokens lx t lx' hcalls => hcalls.next_stop, fun text d => ?_,
    fun depth s hs => ⟨fun call => ⟨fun tree t hrun => ?_, fun base => ?_⟩, fun step hloop a => ?_⟩,
    fun settings text => ⟨opening_under settings text, fun base depth hdepth => ?_⟩⟩
  · have hscan := @TokenStream.readFrom_complete _ (CommentRemoval.reader d)
      (CommentRemoval.reader d).init (Lexer.start text d 1 true) (text.toList.length + 1)
    refine ⟨(hscan (Nat.lt_succ_self _) (Nat.lt_succ_self _)).1, fun fuel hfuel => ?_⟩
    exact (hscan (Nat.lt_succ_self _) (String.length_toList ▸ hfuel)).2
  · have hpast := (concurring_nested le_rfl (nested 0)).call call s hs
    obtain ⟨hreach, hpass⟩ := hpast.ahead tree t hrun
    exact ⟨(hpass trivial).start, hs.reach hreach⟩
  · exact ((concurring_nested le_rfl base).call call s hs).same.symm
  · have hg : Concurring depth (nested depth) (nested depth) := by
      have hself := concurring_nested le_rfl (n := depth) (nested 0)
      rwa [← nested_eq] at hself
    exact runsTo_iterate (hloop.concurs hg) (hg.bound.trans (Nat.le_succ _)) a hs
  · exact (onward_script (concurring_nested hdepth base) _ _ _ (opening_under settings text)).same.symm

/-- A token behind a slash that was read again, and a call on its own behind the first token. -/
theorem read_finishes_pattern :
    (∃ tokens lx t lx', Lexer.Calls (Lexer.start "/=/ b" .v13 1 false) tokens lx
      ∧ tokens.map Token.tag = [.regExp] ∧ lx.next = (.ok t, lx') ∧ t.tag ≠ .endOfInput
      ∧ Lexer.lastStop tokens < t.stop)
    ∧ (CommentRemoval.scan "/=/ b" .v13).Complete
    ∧ ∃ s tree t, s.Under 8 ∧ (nested 8).statement true s = .ok (tree, t)
      ∧ s.current.start < t.current.start
      ∧ RunsTo ((nested 8).access true) tree s
        ((nested 8).repeatTurns ((nested 8).access true) tree s)
      ∧ ∀ base, (Grammar.step^[8] base).statement true s = .ok (tree, t) := by
  obtain ⟨hlexer, hscan, hreaders, hscript⟩ := read_finishes
  refine ⟨?_, (hscan "/=/ b" .v13).1, ?_⟩
  · have hslash : Lexer.Calls (Lexer.start "/=/ b" .v13 1 false) ([] ++ [_]) _ := .next .begin rfl
    have hcalls : Lexer.Calls (Lexer.start "/=/ b" .v13 1 false) _ _ :=
      .rescan hslash hslash rfl rfl
    exact ⟨_, _, _, _, hcalls, rfl, rfl, by decide, hlexer _ _ _ _ _ _ _ _ hcalls rfl (by decide)⟩
  · have hsample : ((advance >>= fun _ => (nested 8).statement true)
        (opening {} "a();b()")).toBool = true := by decide +kernel
    cases hrun : (advance >>= fun _ => (nested 8).statement true) (opening {} "a();b()") with
    | error d =>
      rw [hrun] at hsample
      cases hsample
    | ok r =>
      obtain ⟨tree, t⟩ := r
      obtain ⟨_, s, hfirst, hstatement⟩ := bind_iff.mp hrun
      have hopening := (hscript {} "a();b()").1
      have hs : s.Under 8 :=
        hopening.reach ((onward_advance _ hopening).ahead _ _ hfirst).1
      obtain ⟨hcalls, hloops⟩ := hreaders 8 s hs
      obtain ⟨htakes, hsame⟩ := hcalls (.statement true)
      exact ⟨s, tree, t, hs, hstatement, (htakes tree t hstatement).1,
        hloops _ (.accesses true) tree, fun base => (hsame base).trans hstatement⟩

end Script
end ScriptPress
