import ScriptPress.Proofs.Rereading.Items

/-! # Statements in their roles

A statement is read again without the comments before it; those were taken by then and are put on
it. From there it follows how it is read in each role it can be written in.
-/
namespace ScriptPress.Grammar
open Lexer Render

/-! ## Comments as they are written -/

namespace Tape
variable {x : Tape} {b : Bool} {cs cs' : List String} {xs more : List WriterStep}

/-- What is written of comments. -/
def noted (x : Tape) (cs : List String) : List String := if x.o.writesComments then cs else []

theorem hears_noted (x : Tape) (cs : List String) : x.hears (x.noted cs) = x.recalled cs := by
  rw [noted, recalled]
  split
  · rfl
  · exact x.hears_nil

@[simp] theorem noted_append (x : Tape) (cs cs' : List String) :
    x.noted (cs ++ cs') = x.noted cs ++ x.noted cs' := by
  unfold noted
  split <;> rfl

/-- The lead of words behind comments that were written. -/
def lead (x : Tape) (b : Bool) (cs : List String) : Lead := ⟨b, x.noted cs⟩

@[simp] theorem lead_nil (x : Tape) (b : Bool) : x.lead b [] = b := by
  rw [lead, noted, ite_self]

/-- Mute steps that hold some comments when these are written. -/
structure Holds (x : Tape) (cs : List String) (xs : List WriterStep) : Prop where
  mute : ∀ step ∈ xs, step.isMute = true
  remarks : ∀ lead : Lead, (lead.through x.o.compact xs).remarks = lead.remarks ++ x.noted cs

namespace Holds

theorem nil : x.Holds [] [] := ⟨by simp, fun lead => by simp [noted, Lead.through]⟩

theorem append {ys : List WriterStep} (h : x.Holds cs xs) (h' : x.Holds cs' ys) :
    x.Holds (cs ++ cs') (xs ++ ys) := by
  refine ⟨fun step hs => (List.mem_append.mp hs).elim (h.mute step) (h'.mute step), fun lead => ?_⟩
  rw [through_append, h'.remarks, h.remarks, noted_append, List.append_assoc]

/-- A step without a comment. -/
theorem cons {step : WriterStep} (h : x.Holds cs xs) (hs : step.isMute = true)
    (hno : ∀ text, step ≠ .comment text) : x.Holds cs (step :: xs) := by
  refine ⟨by simpa [hs] using h.mute, fun lead => ?_⟩
  cases step with
  | token _ | number _ | regExp _ | semicolon | hardSemicolon | missing => cases hs
  | comment text => exact absurd rfl (hno text)
  | _ => exact h.remarks _

theorem notes (x : Tape) (cs : List String) : x.Holds cs (notes x.o cs) := by
  unfold Render.notes
  split
  · next hw =>
    have hcompact : x.o.compact = false := by
      rw [RenderOptions.writesComments, Bool.and_eq_true, Bool.not_eq_true'] at hw
      exact hw.2
    refine ⟨fun step hs => ?_, fun lead => ?_⟩
    · obtain ⟨text, -, rfl⟩ := List.mem_map.mp hs
      rfl
    rw [noted, if_pos hw]
    induction cs generalizing lead with
    | nil => simp [Lead.through]
    | cons c cs ih =>
      rw [List.map_cons, Lead.through, ih]
      simp [Lead.noted, hcompact]
  · next hw => exact ⟨by simp, fun lead => by simp [noted, Lead.through, hw]⟩

/-- Behind the steps the comments are in front of the words. -/
theorem loosens (h : x.Holds cs' xs) (b : Bool) (cs : List String) (owes : Bool)
    (more : List WriterStep) :
    Loosens (x.words (x.lead b cs) owes (xs ++ more)) (x.words (x.lead true (cs ++ cs')) owes more) := by
  have hwords : x.words (x.lead b cs) owes (xs ++ more)
      = x.words ((x.lead b cs).through x.o.compact xs) owes more := words_mute h.mute
  have hremarks : (x.lead true (cs ++ cs')).remarks
      = ((x.lead b cs).through x.o.compact xs).remarks := by
    rw [h.remarks]
    exact x.noted_append cs cs'
  rw [hwords]
  exact words_loosens (fun _ => rfl) hremarks owes more

end Holds

theorem holds_gap (x : Tape) (t : Tree) (first : Bool) :
    x.Holds [] (if t.tag == .label then labelGap x.o first else []) := by
  unfold labelGap
  split
  · split
    · exact .cons .nil rfl (by simp)
    · exact .nil
  · exact .nil

/-- What stands before a statement of a list. -/
theorem holds_listed (x : Tape) (t : Tree) (first : Bool) :
    x.Holds t.data.leading (listedLead x.o t first) :=
  .cons ((holds_gap x t first).append (.notes x t.data.leading)) rfl (by simp)

end Tape

/-! ## Loosened words -/

section
variable {α : Type} {x : Tape} {s₀ : State} {m : Grammar → Reading α} {P Q : α → Prop}
  {ws ws' rest rest' : List Word}

theorem Yields.loosen (h : Yields x s₀ m ws' P rest) (hws : Loosens ws ws') :
    Yields x s₀ m ws P rest := by
  refine ⟨by rw [hws.length]; exact h.shorter, fun n s hn hs => ?_⟩
  exact h.ensures n s (by rwa [← hws.length]) (hs.loosen hws)

theorem Yields.loosen_rest (h : Yields x s₀ m ws P rest) (hrest : Loosens rest rest') :
    Yields x s₀ m ws P rest' := by
  refine ⟨by rw [← hrest.length]; exact h.shorter, fun n s hn hs => ?_⟩
  exact (h.ensures n s hn hs).mono fun a s' ha => ⟨ha.1, ha.2.loosen hrest⟩

theorem Yields.mono (h : Yields x s₀ m ws P rest) (hPQ : ∀ a, P a → Q a) :
    Yields x s₀ m ws Q rest :=
  ⟨h.shorter, fun n s hn hs => (h.ensures n s hn hs).mono fun a _ ha => ⟨hPQ a ha.1, ha.2⟩⟩

/-- Words at a new line. -/
theorem Tape.loosens_breaks (x : Tape) (lead : Lead) (owes : Bool) (steps : List WriterStep) :
    Loosens (x.words lead owes steps) (x.words ⟨true, lead.remarks⟩ owes steps) := by
  have hbreaks : lead.breaks = true → (⟨true, lead.remarks⟩ : Lead).breaks = true := fun _ => rfl
  exact words_loosens hbreaks rfl owes steps

end

/-! ## Statements that were read again -/

/-- A statement that was read again without the comments before it, and has others there. -/
structure Tape.Restates (x : Tape) (cs : List String) (t t' : Tree) : Prop where
  echo : x.Echoes t t'
  leading : t'.data.leading = cs
  inner : t'.innerRemarks = x.recalled t.innerRemarks
  drawn : ∀ o, x.Suffices o → SameRun (bareSteps o t') (bareSteps o t)

/-- A statement or a part of one that was read again, and is written as the other one in a role. -/
structure Tape.Replays (x : Tape) (role : Role) (t t' : Tree) : Prop extends x.Regains t t' where
  drawn : ∀ o, x.Suffices o → SameRun (statementAt o t' role) (statementAt o t role)

section
variable {x : Tape} {o : RenderOptions} {t t' : Tree} {cs : List String} {id : NodeId}
  {data : Node} {children : List Tree}

theorem Tape.Suffices.notes (h : x.Suffices o) (cs : List String) :
    notes o (x.recalled cs) = notes o cs := by
  unfold Render.notes
  split
  · next ho => rw [h.recalled ho]
  · rfl

namespace Tape.Restates

/-- The comments that were taken are put on the statement. -/
theorem withComments (h : x.Restates [] t t') (cs : List String) :
    x.Restates cs t (withComments .comments cs t') := by
  cases t' with
  | node id data children =>
    obtain ⟨data', hnode, hcore, hleading, htrailing⟩ :=
      withComments_leading cs id data children h.leading
    have hecho := h.echo.withComments (by simp : PropertyKind.comments ≠ .postfixForm) cs
    rw [hnode] at hecho ⊢
    refine ⟨hecho, hleading, ?_, fun o ho => ?_⟩
    · rw [← h.inner, Tree.innerRemarks, Tree.innerRemarks, htrailing]
    · rw [bareSteps_congr hcore htrailing]
      exact h.drawn o ho

theorem remarks (h : x.Restates (x.recalled (cs ++ t.data.leading)) t t') :
    t'.remarks = x.recalled (cs ++ t.remarks) := by
  rw [Tree.remarks_eq, Tree.remarks_eq, h.leading, h.inner, ← Tape.recalled_append,
    List.append_assoc]

/-- Comments in front of the first statement of a list may stand before its line. -/
theorem listed (h : x.Restates (x.recalled (cs ++ t.data.leading)) t t') {first : Bool}
    (hfirst : first = true ∨ cs = []) (ho : x.Suffices o) :
    SameRun (statementAt o t' (.listed first)) (notes o cs ++ statementAt o t (.listed first)) := by
  have hlabel : (t'.tag == .label) = (t.tag == .label) := by rw [h.echo.tag]
  have hleading : leadingComments o t'.data = notes o cs ++ leadingComments o t.data := by
    change notes o t'.data.leading = notes o cs ++ notes o t.data.leading
    rw [h.leading, ho.notes, notes_append]
  rw [statementAt_listed, statementAt_listed, hlabel, hleading]
  have hbare := h.drawn o ho
  rcases hfirst with rfl | rfl
  · have hgap : (if t.tag == .label then labelGap o true else []) = [] := by
      simp [labelGap]
    have hline : SameRun (.newline :: notes o cs) (notes o cs ++ [.newline]) :=
      (notes_newline o cs).symm
    rw [hgap]
    simpa using hline.append ((SameRun.refl (leadingComments o t.data)).append hbare)
  · rw [notes_nil, List.nil_append, List.nil_append]
    exact (SameRun.refl _).append hbare

/-- A statement whose own comments were taken. -/
theorem replays (h : x.Restates (x.recalled t.data.leading) t t') (first : Bool) :
    x.Replays (.listed first) t t' := by
  have hnone : x.Restates (x.recalled ([] ++ t.data.leading)) t t' := h
  refine ⟨⟨h.echo, hnone.remarks⟩, fun o ho => ?_⟩
  have hdrawn := @listed _ _ _ _ _ hnone first (.inr rfl) ho
  rwa [notes_nil, List.nil_append] at hdrawn

end Tape.Restates

/-! ### Bodies -/

/-- The role of a body is that of a statement of a list, but for a block. -/
theorem Tape.Replays.body (h : x.Replays (.listed true) t t') (hblock : t.tag ≠ .block) :
    x.Replays .body t t' := by
  have hblock' : t'.tag ≠ .block := by rwa [h.echo.tag]
  refine ⟨h.toRegains, fun o ho => ?_⟩
  rw [statementAt_body, statementAt_body, if_neg (by simpa using hblock'),
    if_neg (by simpa using hblock)]
  exact (SameRun.cons _ (h.drawn o ho)).behind _

theorem Tape.Replays.otherwise (h : x.Replays .body t t') (hif : t.tag ≠ .kwIf) :
    x.Replays .otherwise t t' := by
  have hif' : t'.tag ≠ .kwIf := by rwa [h.echo.tag]
  refine ⟨h.toRegains, fun o ho => ?_⟩
  rw [statementAt_otherwise, statementAt_otherwise, if_neg (by simpa using hif'),
    if_neg (by simpa using hif)]
  exact h.drawn o ho

/-- An `if` behind an `else` goes on its line, behind its comments. -/
theorem Tape.Restates.otherwise (h : x.Restates (x.recalled t.data.leading) t t')
    (hif : t.tag = .kwIf) : x.Replays .otherwise t t' := by
  have hif' : t'.tag = .kwIf := by rwa [h.echo.tag]
  refine ⟨(h.replays true).toRegains, fun o ho => ?_⟩
  have hleading : leadingComments o t'.data = leadingComments o t.data := by
    change notes o t'.data.leading = notes o t.data.leading
    rw [h.leading, ho.notes]
  rw [statementAt_otherwise, statementAt_otherwise, if_pos (by simpa using hif'),
    if_pos (by simpa using hif), hleading, ← bareSteps_ofIf hif, ← bareSteps_ofIf hif']
  exact (SameRun.refl _).append (.cons _ (h.drawn o ho))

end

/-! ## Reading statements again -/

/-- A token behind a statement that is no part of it. -/
structure Trails (endsOpen : Bool) (s : Sym) : Prop where
  handler : s.tag ≠ .kwCatch ∧ s.tag ≠ .kwFinally
  closed : endsOpen = true → s.tag ≠ .kwElse

/-- A statement is read again from what is written of it without the comments before it; a block
that is a body takes those inside. -/
structure StatementYields (x : Tape) (ctx : Ctx) (top : Bool) (t : Tree) : Prop where
  bare : ∀ {s₀ : State} {b : Bool} {more}, s₀.ctx = ctx →
    Resumes x.dialect (Trails t.endsOpen) more →
    Yields x s₀.settle (fun g => g.bareStatement top s₀.pendingLabels)
      (x.words b false (bareSteps x.o t ++ more)) (x.Restates [] t) (x.words true false more)
  body : t.tag = .block → ∀ {s₀ : State} {b : Bool} {more}, s₀.ctx = ctx → s₀.pendingLabels = [] →
    Resumes x.dialect (Trails t.endsOpen) more →
    Yields x s₀ (·.statementOf top) (x.words b false (statementAt x.o t .body ++ more))
      (x.Replays .body t) (x.words true false more)

section
variable {x : Tape} {s₀ s s' s₁ : State} {ws ws' : List Word} {t : Tree} {ctx : Ctx} {top : Bool}
  {cs : List String} {b : Bool} {lead : Lead} {more : List WriterStep}

/-- Inside a statement its labels are in front of nothing. -/
theorem Fed.settle (h : Fed x s₀ ws s) : Fed x s₀.settle ws s.settle := by
  refine ⟨⟨?_, h.kept.nextId⟩, h.dialect, h.keeps, h.taken, h.labels, h.faces, h.comments⟩
  simp only [State.settle, State.frame, h.kept.targets, h.kept.labels, h.kept.function?,
    h.kept.dialect]

/-- A reading in other surroundings comes back to the ones before. -/
theorem Fed.restore (h : Fed x s₀ ws s) (h' : Fed x s₁ ws' s') (hid : s.nextId ≤ s₁.nextId)
    {s'' : State} (hlexer : s''.lexer = s'.lexer) (hcurrent : s''.current = s'.current)
    (hcomments : s''.comments = s'.comments) (hnext : s''.nextId = s'.nextId)
    (hframe : s''.frame = s₀.frame) : Fed x s₀ ws' s'' := by
  have hkept : s₀.nextId ≤ s''.nextId := by
    have hle := h.kept.nextId
    have hle' := h'.kept.nextId
    omega
  refine ⟨⟨hframe, hkept⟩, ?_, ?_, ?_, h.labels, ?_, hcomments.trans h'.comments⟩
  · rw [hlexer]
    exact h'.dialect
  · rw [hlexer]
    exact h'.keeps
  · rw [hlexer]
    exact h'.taken
  · rw [hlexer, hcurrent]
    exact h'.faces

namespace StatementYields

/-- With the comments before it. -/
theorem statementOf (h : StatementYields x ctx top t) (ht : Formed x.dialect (.statement ctx top) t)
    (hctx : s₀.ctx = ctx) (hmore : Resumes x.dialect (Trails t.endsOpen) more) {n : Nat}
    (hn : (x.words lead false (bareSteps x.o t ++ more)).length ≤ n)
    (hs : Fed x s₀ (x.words lead false (bareSteps x.o t ++ more)) s) :
    Ensures True ((nested n).statementOf top) s fun t' s' =>
      x.Restates (x.hears lead.remarks) t t' ∧ Fed x s₀.settle (x.words true false more) s' := by
  obtain ⟨sym, ws, -, hwords⟩ := ht.starts.words x.o.compact more
  have hall : ∀ lead : Lead, x.words lead false (bareSteps x.o t ++ more) = ⟨sym, lead⟩ :: ws :=
    hwords
  have hbare := h.bare (b := lead.breaks) hctx hmore
  rw [hall] at hn hs hbare
  refine hs.takeComments fun s₁ hs₁ => ensures_get (ensures_modify ?_)
  rw [hs₁.kept.pendingLabels]
  refine (hbare.ensures n _ hn hs₁.settle).bind fun t' s₂ hread => ?_
  exact ensures_pure ⟨hread.1.withComments _, hread.2⟩

/-- As the first one of a list, also where labels are in front of it. -/
theorem first (h : StatementYields x ctx top t) (ht : Formed x.dialect (.statement ctx top) t)
    (hctx : s₀.ctx = ctx) (hmore : Resumes x.dialect (Trails t.endsOpen) more) {n : Nat}
    (hn : (x.words b false (statementAt x.o t (.listed true) ++ more)).length < n)
    (hs : Fed x s₀ (x.words b false (statementAt x.o t (.listed true) ++ more)) s) :
    Ensures True ((nested n).statement top) s fun t' s' =>
      x.Replays (.listed true) t t' ∧ Fed x s₀.settle (x.words true false more) s' := by
  have hsteps : statementAt x.o t (.listed true) ++ more
      = listedLead x.o t true ++ (bareSteps x.o t ++ more) := by
    rw [statementAt_listed, listedLead, List.append_assoc]
  have hloose := (x.holds_listed t true).loosens b [] false (bareSteps x.o t ++ more)
  rw [x.lead_nil, List.nil_append] at hloose
  rw [hsteps] at hn hs
  rw [hloose.length] at hn
  cases n with
  | zero => omega
  | succ n =>
    have hread := h.statementOf ht hctx hmore (Nat.le_of_lt_succ hn) (hs.loosen hloose)
    rw [Tape.lead, x.hears_noted] at hread
    have hgo := hread.mono fun t' s' h => And.intro (h.1.replays true) h.2
    have hstep : (nested (n + 1)).statement top s = (nested n).statementOf top s :=
      nests_statement top n s
    unfold Ensures at hgo ⊢
    rwa [hstep]

variable (h : StatementYields x ctx top t) (ht : Formed x.dialect (.statement ctx top) t)
  (hctx : s₀.ctx = ctx) (hpending : s₀.pendingLabels = [])
  (hmore : Resumes x.dialect (Trails t.endsOpen) more)
include h ht hctx hpending hmore

/-- From its own words, behind comments that are in front of them. -/
theorem yields (lead : Lead) : Yields x s₀ (·.statementOf top)
    (x.words lead false (bareSteps x.o t ++ more)) (x.Restates (x.hears lead.remarks) t)
    (x.words true false more) := by
  have hlength : (x.words lead false (bareSteps x.o t ++ more)).length
      = (x.words lead.breaks false (bareSteps x.o t ++ more)).length := length_words _ _ _ _
  refine ⟨?_, fun n s hn hs => ?_⟩
  · rw [hlength]
    exact (h.bare hctx hmore).shorter
  · have hread := h.statementOf ht hctx hmore hn hs
    rwa [settle_eq hpending] at hread

/-- As one of a list, perhaps behind other comments. -/
theorem listed (first b : Bool) (cs : List String) : Yields x s₀ (·.statementOf top)
    (x.words (x.lead b cs) false (statementAt x.o t (.listed first) ++ more))
    (x.Restates (x.recalled (cs ++ t.data.leading)) t) (x.words true false more) := by
  have hsteps : statementAt x.o t (.listed first) ++ more
      = listedLead x.o t first ++ (bareSteps x.o t ++ more) := by
    rw [statementAt_listed, listedLead, List.append_assoc]
  have hyields := h.yields ht hctx hpending hmore (x.lead true (cs ++ t.data.leading))
  rw [Tape.lead, x.hears_noted] at hyields
  rw [hsteps]
  exact hyields.loosen ((x.holds_listed t first).loosens b cs false _)

/-- As one of a list, with its own comments. -/
theorem replays (first b : Bool) : Yields x s₀ (·.statementOf top)
    (x.words b false (statementAt x.o t (.listed first) ++ more)) (x.Replays (.listed first) t)
    (x.words true false more) := by
  have hyields := h.listed ht hctx hpending hmore first b []
  rw [x.lead_nil] at hyields
  exact hyields.mono fun t' ht' => ht'.replays first

/-- As the body of a statement. -/
theorem bodied (b : Bool) : Yields x s₀ (·.statementOf top)
    (x.words b false (statementAt x.o t .body ++ more)) (x.Replays .body t)
    (x.words true false more) := by
  by_cases hblock : t.tag = .block
  · exact h.body hblock hctx hpending hmore
  have hbehind : Resumes x.dialect (Trails t.endsOpen) (.outdent :: more) := .skip rfl hmore
  have hyields := h.replays ht hctx hpending hbehind true b
  have hsteps : statementAt x.o t .body ++ more
      = .indent :: (statementAt x.o t (.listed true) ++ .outdent :: more) := by
    rw [statementAt_body, if_neg (by simpa using hblock)]
    simp
  rw [hsteps]
  exact hyields.mono fun t' ht' => ht'.body hblock

/-- As the branch of an else. -/
theorem otherwise (b : Bool) : Yields x s₀ (·.statementOf top)
    (x.words b false (statementAt x.o t .otherwise ++ more)) (x.Replays .otherwise t)
    (x.words true false more) := by
  by_cases hif : t.tag = .kwIf
  · have hsteps : statementAt x.o t .otherwise ++ more
        = (leadingComments x.o t.data ++ [.space]) ++ (bareSteps x.o t ++ more) := by
      rw [statementAt_otherwise, if_pos (by simpa using hif), bareSteps_ofIf hif]
      simp
    have hholds : x.Holds (t.data.leading ++ []) (leadingComments x.o t.data ++ [.space]) :=
      (Tape.Holds.notes x t.data.leading).append (.cons .nil rfl (by simp))
    have hyields := h.yields ht hctx hpending hmore (x.lead true t.data.leading)
    rw [Tape.lead, x.hears_noted] at hyields
    rw [hsteps]
    have hloose : Loosens (x.words (x.lead b []) false _) (x.words (x.lead true ([] ++ _)) false _) :=
      hholds.loosens b [] false (bareSteps x.o t ++ more)
    rw [x.lead_nil, List.nil_append, List.append_nil] at hloose
    exact (hyields.loosen hloose).mono fun t' ht' => ht'.otherwise hif
  · rw [statementAt_otherwise, if_neg (by simpa using hif)]
    exact (h.bodied ht hctx hpending hmore b).mono fun t' ht' => ht'.otherwise hif

end StatementYields
end

end ScriptPress.Grammar
