import ScriptPress.Proofs.Rereading.Tree

/-! # Comments behind all words

The comments behind the last word of a script are those at its end: every statement ends with a
word behind all of its comments.
-/
namespace ScriptPress
open Render

section
variable {compact : Bool} {d : Dialect} {lead : Lead} {xs ys : List WriterStep}
  {step : WriterStep}

theorem behind_written {t : Written} (hs : step.written? = some t) :
    behind compact lead (step :: xs) = behind compact false xs := by
  cases step <;> cases hs <;> rfl

/-- What is behind instructions depends on them by the lead they leave. -/
theorem behind_append (compact : Bool) (lead : Lead) (xs : List WriterStep) :
    ∃ lead' : Lead, ∀ more, behind compact lead (xs ++ more) = behind compact lead' more := by
  induction xs generalizing lead with
  | nil => exact ⟨lead, fun _ => rfl⟩
  | cons step xs ih =>
    cases hs : step.written? with
    | some t =>
      obtain ⟨lead', h⟩ := ih false
      exact ⟨lead', fun more => (behind_written hs).trans (h more)⟩
    | none =>
      cases step with
      | token _ | number _ | regExp _ | hardSemicolon => cases hs
      | semicolon => exact ih (if compact then lead else false)
      | newline | blankLine => exact ih lead.broken
      | comment text => exact ih (lead.noted compact text)
      | space | indent | outdent | setBackLine | missing => exact ih lead

/-- No comment is behind compact output. -/
theorem behind_compact (hlead : lead.remarks = []) (xs : List WriterStep) :
    behind true lead xs = [] := by
  induction xs generalizing lead with
  | nil => exact hlead
  | cons step xs ih =>
    cases hs : step.written? with
    | some t => exact (behind_written hs).trans (ih rfl)
    | none =>
      cases step with
      | token _ | number _ | regExp _ | hardSemicolon => cases hs
      | newline | blankLine | comment _ => exact ih hlead
      | semicolon | space | indent | outdent | setBackLine | missing => exact ih hlead

/-! ## Instructions that end with a word -/

/-- Expanded instructions with no comment behind their last word. -/
def Clears (xs : List WriterStep) : Prop :=
  ∀ lead, ∃ b : Bool, ∀ more, behind false lead (xs ++ more) = behind false b more

namespace Clears

theorem written {t : Written} (hs : step.written? = some t) : Clears [step] :=
  fun _ => ⟨false, fun _ => behind_written hs⟩

theorem token (text : String) : Clears [.token text] := .written rfl

theorem semicolon : Clears [.semicolon] := fun _ => ⟨false, fun _ => rfl⟩

theorem behind (xs : List WriterStep) (h : Clears ys) : Clears (xs ++ ys) := by
  intro lead
  obtain ⟨lead', hxs⟩ := behind_append false lead xs
  obtain ⟨b, hys⟩ := h lead'
  exact ⟨b, fun more => by rw [List.append_assoc, hxs, hys]⟩

theorem cons (step : WriterStep) (h : Clears ys) : Clears (step :: ys) := h.behind [step]

/-- Behind the last word a line may end. -/
theorem ended (h : Clears xs) (hstep : step = .newline ∨ step = .outdent) :
    Clears (xs ++ [step]) := by
  intro lead
  obtain ⟨b, hxs⟩ := h lead
  rcases hstep with rfl | rfl
  · exact ⟨true, fun more => by rw [List.append_assoc, hxs]; rfl⟩
  · exact ⟨b, fun more => by rw [List.append_assoc, hxs]; rfl⟩

theorem flatMap {α : Type} {as : List α} {f : α → List WriterStep} (h : Clears xs)
    (hall : ∀ a ∈ as, Clears (f a)) : Clears (xs ++ as.flatMap f) := by
  induction as generalizing xs with
  | nil => simpa using h
  | cons a as ih =>
    rw [List.flatMap_cons, ← List.append_assoc]
    exact ih ((hall a (by simp)).behind xs) fun b hb => hall b (List.mem_cons_of_mem a hb)

end Clears
end

/-! ## Statements -/

namespace Render
variable {d : Dialect} {o : RenderOptions} {t : Tree} {id : NodeId} {data : Node}
  {ts : List Tree}

/-- The brace that closes a block or a switch. -/
theorem brace_clears (xs : List WriterStep) : Clears (xs ++ [.outdent, .newline, .token "\x7d"]) :=
  (((Clears.token "\x7d").cons .newline).cons .outdent).behind xs

theorem block_clears (ts : List Tree) : Clears (statementAt o (.node id data ts) .block) := by
  rw [statementAt_block]
  exact ((brace_clears _).cons .indent).cons (.token "\x7b")

theorem body_clears (h : Clears (bareSteps o t)) : Clears (statementAt o t .body) := by
  rw [statementAt_body]
  split
  · exact ((((brace_clears _).behind _).cons .indent).cons (.token "\x7b")).cons .space
  · refine (Clears.ended ?_ (.inr rfl)).cons .indent
    rw [statementAt_listed]
    exact h.behind _

theorem otherwise_clears (h : Clears (bareSteps o t)) : Clears (statementAt o t .otherwise) := by
  rw [statementAt_otherwise]
  split
  · next hif =>
    rw [← bareSteps_ofIf (by simpa using hif)]
    exact (h.cons .space).behind _
  · exact body_clears h

theorem listed_clears (h : Clears (bareSteps o t)) (first : Bool) :
    Clears (statementAt o t (.listed first)) := by
  rw [statementAt_listed]
  exact h.behind _

theorem header_clears (keyword : String) (test : Tree) {rest : List WriterStep} (h : Clears rest) :
    Clears (headerAt o keyword test rest) := (h.cons (.token ")")).behind _

theorem function_clears {f : FunctionData} {body : Tree} (h : Clears (statementAt o body .block)) :
    Clears (functionAt o f body) := by
  unfold functionAt
  exact (((((h.cons .space).cons (.token ")")).behind _).cons _).cons _).cons _

/-- What is written of a tree that ends a statement clears the comments in it. -/
def FormClears (o : RenderOptions) : Form → Tree → Prop
  | .statement _ _, t => Clears (bareSteps o t)
  | .block _ _, t => Clears (statementAt o t .block)
  | .handler _ _, t => Clears (statementAt o t .tryClause)
  | _, _ => True

theorem formed_clears {form : Form} (h : Formed d form t) : FormClears o form t := by
  induction h with
  | leaf | array | object | function | unary | step | assign | conditional | binary | comma | call
  | construct | property | index | hole | element | declared | initialised | noPart | part
  | noStart | exprStart | varStart | case | default => trivial
  | block => exact block_clears _
  | functionStatement hdata _ _ ih =>
    rw [FormClears, bareSteps_function hdata.core]
    exact (function_clears ih).ended (.inl rfl)
  | blockStatement hdata =>
    rw [FormClears, bareSteps_block hdata.core]
    exact (((brace_clears _).cons _).cons _).ended (.inl rfl)
  | var hdata =>
    rw [FormClears, bareSteps_var hdata.core]
    exact Clears.semicolon.behind _
  | empty hdata =>
    rw [FormClears, bareSteps_empty hdata.core]
    exact .written rfl
  | ifThen hdata _ _ _ ih =>
    rw [FormClears, bareSteps_if hdata.core, ifSteps_then]
    exact header_clears _ _ (body_clears ih)
  | ifElse hdata _ _ _ _ _ _ ih =>
    rw [FormClears, bareSteps_if hdata.core, ifSteps_else]
    exact header_clears _ _ ((((otherwise_clears ih).cons _).cons _).behind _)
  | «while» hdata _ _ _ ih =>
    rw [FormClears, bareSteps_while hdata.core]
    exact header_clears _ _ (body_clears ih)
  | «with» hdata _ _ _ ih =>
    rw [FormClears, bareSteps_with hdata.core]
    exact header_clears _ _ (body_clears ih)
  | doWhile hdata =>
    rw [FormClears, bareSteps_do hdata.core]
    exact ((header_clears _ _ .semicolon).cons _).behind _
  | «for» hdata _ _ _ _ _ _ _ ih =>
    rw [FormClears, bareSteps_for hdata.core]
    exact ((body_clears ih).cons _).behind _
  | forIn hdata _ _ _ _ _ _ ih =>
    rw [FormClears, bareSteps_forIn hdata.core]
    exact ((body_clears ih).cons _).behind _
  | jump hdata ht =>
    rw [FormClears, bareSteps_keyword hdata.core (ht.elim .inl fun ht => .inr (.inl ht))]
    exact Clears.semicolon.cons _
  | jumpTo hdata ht _ hname =>
    rw [FormClears, bareSteps_jump hdata.core ht hname]
    exact (Clears.semicolon.cons _).cons _
  | «return» hdata =>
    rw [FormClears, bareSteps_keyword hdata.core (.inr (.inr rfl))]
    exact Clears.semicolon.cons _
  | returnValue hdata =>
    rw [FormClears, bareSteps_value hdata.core (.inl rfl)]
    exact Clears.semicolon.behind _
  | throw hdata =>
    rw [FormClears, bareSteps_value hdata.core (.inr rfl)]
    exact Clears.semicolon.behind _
  | exprStatement hdata =>
    rw [FormClears, bareSteps_expr hdata.core]
    exact Clears.semicolon.behind _
  | switch hdata =>
    rw [FormClears, bareSteps_switch hdata.core]
    exact brace_clears _
  | «try» hdata _ _ _ _ _ _ ih ih' ih'' =>
    rw [FormClears, bareSteps_try hdata.core]
    refine Clears.flatMap ((ih.cons _).cons _) fun t ht => Clears.cons _ ?_
    exact (List.mem_append.mp ht).elim (ih' t) (ih'' t)
  | label hdata hname _ _ ih =>
    rw [FormClears, bareSteps_label hdata.core hname]
    exact ((((listed_clears ih true).cons _).cons _).cons _).cons _
  | «catch» hdata _ hname _ ih =>
    rw [FormClears, statementAt_catch hdata.core hname]
    exact (((ih.cons _).cons _).cons _).behind _
  | guarded hdata _ _ hname _ _ _ ih =>
    rw [FormClears, statementAt_guarded hdata.core hname]
    exact ((ih.cons _).cons _).behind _
  | «finally» hdata _ _ ih =>
    rw [FormClears, statementAt_finally hdata.core]
    exact (ih.cons _).cons _

end Render

/-! ## Lists of statements -/

namespace Grammar
variable {x : Tape} {ts : List Tree}

theorem behind_notes (x : Tape) (lead : Lead) (cs : List String) :
    behind x.o.compact lead (notes x.o cs) = lead.remarks ++ x.noted cs := by
  have hholds := Tape.Holds.notes x cs
  rw [← List.append_nil (notes x.o cs), behind_mute hholds.mute]
  exact hholds.remarks lead

/-- Behind a list of statements are the comments at its end. -/
theorem behind_listed (hall : ∀ t ∈ ts, Clears (bareSteps x.o t)) (cs : List String) :
    behind x.o.compact false (listedAt x.o ts ++ notes x.o cs) = x.noted cs := by
  cases hcompact : x.o.compact with
  | true =>
    rw [behind_compact rfl, Tape.noted, RenderOptions.writesComments, hcompact]
    simp
  | false =>
    cases ts with
    | nil =>
      have hnotes := behind_notes x false cs
      rwa [hcompact] at hnotes
    | cons t ts =>
      have hclears : Clears (listedAt x.o (t :: ts)) :=
        (listed_clears (hall t (by simp)) true).flatMap fun u hu =>
          listed_clears (hall u (by simp [hu])) false
      obtain ⟨b, hbehind⟩ := hclears false
      have hnotes := behind_notes x b cs
      rw [hcompact] at hnotes
      exact (hbehind _).trans hnotes

end Grammar
end ScriptPress
