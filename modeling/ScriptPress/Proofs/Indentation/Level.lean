import ScriptPress.Proofs.Printing.Steps

/-! # The level of the writer

Only two instructions move the level of the writer. Whatever the tree of a part, and in every role,
what is written of it has them in pairs, so it leaves the level as it was.
-/
namespace ScriptPress

/-- The level behind an instruction. -/
def WriterStep.levelFrom (step : WriterStep) (n : Nat) : Nat :=
  if step = .indent then n + 1 else if step = .outdent then n - 1 else n

namespace Writer
variable {w : Writer}

/-- What writing a text leaves alone. -/
def frame (w : Writer) : Bool × Layout × Nat := (w.compact, w.layout, w.level)

@[simp] theorem frame_push (text : List Char) : (w.push text).frame = w.frame := rfl

@[simp] theorem frame_raw (text : List Char) : (w.raw text).frame = w.frame := rfl

@[simp] theorem frame_writeIndent : w.writeIndent.frame = w.frame := rfl

@[simp] theorem frame_settle (next : List Char) : (w.settle next).frame = w.frame := by
  unfold settle
  split
  · split <;> rfl
  · rfl

@[simp] theorem frame_separate (first : Char) : (w.separate first).frame = w.frame := by
  unfold separate
  split
  · rfl
  · split <;> rfl

@[simp] theorem frame_token (text : String) : (w.token text).frame = w.frame := by
  unfold token
  cases text.toList with
  | nil => rfl
  | cons first rest => exact (frame_separate first).trans (frame_settle (first :: rest))

@[simp] theorem frame_newline : w.newline.frame = w.frame := by
  unfold newline
  split <;> rfl

@[simp] theorem frame_blankLine : w.blankLine.frame = w.frame := by
  unfold blankLine
  split
  · rfl
  · dsimp only
    split <;> simp

@[simp] theorem frame_comment (text : String) : (w.comment text).frame = w.frame := by
  unfold comment
  split <;> simp

/-- An instruction moves at most the level. -/
theorem frame_step (w : Writer) (step : WriterStep) :
    (w.step step).frame = (w.compact, w.layout, step.levelFrom w.level) := by
  cases step with
  | token text => exact frame_token text
  | regExp text => exact frame_token text
  | number text => exact frame_token text
  | hardSemicolon => exact frame_token ";"
  | comment text => exact frame_comment text
  | newline => exact frame_newline
  | blankLine => exact frame_blankLine
  | space =>
    simp only [Writer.step, space]
    split <;> rfl
  | semicolon =>
    simp only [Writer.step, semicolon]
    split
    · rfl
    · exact frame_token ";"
  | indent | outdent | setBackLine | missing => rfl

end Writer

namespace Render
variable {o : RenderOptions} {n : Nat} {xs ys : List WriterStep}

/-- The level behind instructions. -/
def levelAfter (xs : List WriterStep) (n : Nat) : Nat := xs.foldl (fun n step => step.levelFrom n) n

@[simp] theorem levelAfter_nil : levelAfter [] n = n := rfl

@[simp] theorem levelAfter_cons (step : WriterStep) :
    levelAfter (step :: xs) n = levelAfter xs (step.levelFrom n) := rfl

@[simp] theorem levelAfter_append : levelAfter (xs ++ ys) n = levelAfter ys (levelAfter xs n) :=
  List.foldl_append ..

@[simp] theorem levelAfter_ite {p : Prop} [Decidable p] :
    levelAfter (if p then xs else ys) n = if p then levelAfter xs n else levelAfter ys n :=
  apply_ite (fun zs => levelAfter zs n) ..

theorem frame_run (w : Writer) (xs : List WriterStep) :
    (w.run xs).frame = (w.compact, w.layout, levelAfter xs w.level) := by
  induction xs generalizing w with
  | nil => rfl
  | cons step xs ih =>
    obtain ⟨hcompact, hlayout, hlevel⟩ : _ ∧ _ ∧ _ := by
      simpa [Writer.frame] using Writer.frame_step w step
    rw [levelAfter_cons, ← hcompact, ← hlayout, ← hlevel]
    exact ih (w.step step)

/-- Instructions that leave the level as it was. -/
def Balanced (xs : List WriterStep) : Prop := ∀ n, levelAfter xs n = n

/-- What is written of a part, at any place and in any role, leaves the level as it was. -/
structure Part.Balanced (p : Part) : Prop where
  expr : ∀ place, Render.Balanced (p.expr place)
  statement : ∀ role, Render.Balanced (p.statement role)

/-! ## Expressions -/

theorem balanced_separated {items : List (List WriterStep)} (h : ∀ xs ∈ items, Balanced xs) :
    Balanced (separated items) := by
  intro n
  fun_induction Render.separated items with
  | case1 => rfl
  | case2 xs => exact h xs (by simp) n
  | case3 xs items _ ih =>
    have hrest := ih fun ys hys => h ys (List.mem_cons_of_mem xs hys)
    simp [h xs (by simp) n, WriterStep.levelFrom, hrest]

theorem balanced_flatMap {α : Type} {items : List α} {steps : α → List WriterStep}
    (h : ∀ a ∈ items, Balanced (steps a)) : Balanced (items.flatMap steps) := by
  intro n
  induction items with
  | nil => rfl
  | cons a items ih =>
    obtain ⟨ha, hrest⟩ := List.forall_mem_cons.mp h
    rw [List.flatMap_cons, levelAfter_append, ha n, ih hrest]

variable {parts : List Part}

theorem Part.Balanced.enclosed {p : Part} (h : p.Balanced) (level : Nat) :
    Render.Balanced (p.enclosed level) := h.expr _

theorem balanced_arguments (h : ∀ p ∈ parts, p.Balanced) : Balanced (argumentSteps parts) := by
  intro n
  have hall : Balanced (separated (parts.map (·.enclosed Precedence.assignment))) :=
    balanced_separated (List.forall_mem_map.mpr fun p hp => (h p hp).enclosed _)
  simp [argumentSteps, WriterStep.levelFrom, hall n]

theorem balanced_elements (h : ∀ p ∈ parts, p.Balanced) : Balanced (elementSteps parts) := by
  intro n
  induction parts with
  | nil => rfl
  | cons p parts ih =>
    obtain ⟨hp, hrest⟩ := List.forall_mem_cons.mp h
    rw [elementSteps]
    split <;> simp [WriterStep.levelFrom, hp.enclosed _ n, ih hrest]

theorem balanced_array (h : ∀ p ∈ parts, p.Balanced) : Balanced (arraySteps parts) := by
  intro n
  unfold arraySteps
  cases parts with
  | nil => rfl
  | cons p parts =>
    obtain ⟨hp, hrest⟩ := List.forall_mem_cons.mp h
    dsimp only
    split <;> split <;> simp [WriterStep.levelFrom, hp.enclosed _ n, balanced_elements hrest n]

theorem balanced_properties (h : ∀ p ∈ parts, p.Balanced) :
    ∀ xs ∈ propertySteps parts, Balanced xs := by
  fun_induction propertySteps parts with
  | case1 => simp
  | case2 key => exact List.forall_mem_singleton.mpr fun n => rfl
  | case3 key value rest ih =>
    obtain ⟨-, hvalue, hrest⟩ := List.forall_mem_cons.mp h |>.imp_right List.forall_mem_cons.mp
    refine List.forall_mem_cons.mpr ⟨fun n => ?_, ih hrest⟩
    exact hvalue.enclosed _ n

theorem balanced_function (data : Node) (h : ∀ p ∈ parts, p.Balanced) :
    Balanced (functionSteps data parts) := by
  intro n
  unfold functionSteps
  split
  · rfl
  · next f _ =>
    have hparams : Balanced (separated (f.params.map fun p => [.token p])) :=
      balanced_separated (List.forall_mem_map.mpr fun p _ n => rfl)
    cases parts with
    | nil => cases f.name <;> simp [WriterStep.levelFrom, hparams n]
    | cons body =>
      have hbody := (h body (by simp)).statement .block n
      cases f.name <;> simp [WriterStep.levelFrom, hparams n, hbody]

theorem balanced_object (h : ∀ p ∈ parts, p.Balanced) : Balanced (objectSteps parts) := by
  intro n
  have hall : Balanced (separated (propertySteps parts)) :=
    balanced_separated (balanced_properties h)
  simp [objectSteps, WriterStep.levelFrom, hall n]

theorem balanced_bareExpr (data : Node) (h : ∀ p ∈ parts, p.Balanced) (place : Place) :
    Balanced (bareExpr o data parts place) := by
  intro n
  have hfunction : levelAfter (functionSteps data parts) n = n := balanced_function data h n
  have harray : levelAfter (arraySteps parts) n = n := balanced_array h n
  have hobject : levelAfter (objectSteps parts) n = n := balanced_object h n
  have harguments : ∀ args, args ⊆ parts → levelAfter (argumentSteps args) n = n :=
    fun args hargs => balanced_arguments (fun p hp => h p (hargs hp)) n
  have hexpr : ∀ p ∈ parts, ∀ place n, levelAfter (p.expr place) n = n :=
    fun p hp place => (h p hp).expr place
  -- each sort of node writes flat steps around those of its parts
  unfold bareExpr
  dsimp only
  split
  all_goals try split
  all_goals simp_all [WriterStep.levelFrom, infixed, Part.operand, Part.enclosed]

theorem balanced_exprSteps (t : Tree) (h : ∀ p ∈ parts, p.Balanced) (place : Place) :
    Balanced (exprSteps o t parts place) := by
  intro n
  unfold exprSteps
  split
  · simp [WriterStep.levelFrom, balanced_bareExpr t.data h _ n]
  · exact balanced_bareExpr t.data h place n

/-! ## Statements -/

theorem levelAfter_comments (kind : PropertyKind) (data : Node) :
    levelAfter (commentSteps o kind data) n = n := by
  unfold commentSteps
  split
  · induction data.properties.texts kind with
    | nil => rfl
    | cons text texts ih => exact ih
  · rfl

@[simp] theorem levelAfter_leading (data : Node) : levelAfter (leadingComments o data) n = n :=
  levelAfter_comments .comments data

@[simp] theorem levelAfter_trailing (data : Node) : levelAfter (trailingComments o data) n = n :=
  levelAfter_comments .trailingComments data

@[simp] theorem levelAfter_gap (first : Bool) : levelAfter (labelGap o first) n = n := by
  unfold labelGap
  split <;> rfl

theorem balanced_listed (h : ∀ p ∈ parts, p.Balanced) : Balanced (listed parts) := by
  intro n
  cases parts with
  | nil => rfl
  | cons p parts =>
    obtain ⟨hp, hrest⟩ := List.forall_mem_cons.mp h
    have hall : Balanced (parts.flatMap fun p => p.statement (.listed false)) :=
      balanced_flatMap fun q hq => (hrest q hq).statement _
    simp [listed, hp.statement _ n, hall n]

theorem balanced_block (data : Node) (h : ∀ p ∈ parts, p.Balanced) :
    Balanced (blockSteps o data parts) := by
  intro n
  simp [blockSteps, blockRest, WriterStep.levelFrom, balanced_listed h (n + 1)]

theorem balanced_body (data : Node) (h : ∀ p ∈ parts, p.Balanced) :
    Balanced (bodySteps o data parts) := by
  intro n
  simp [bodySteps, blockRest, WriterStep.levelFrom, balanced_listed h (n + 1)]

/-- What sets a word off from the body before it moves no level. -/
@[simp] theorem afterBody_flat (p : Part) : afterBody p ≠ .indent ∧ afterBody p ≠ .outdent := by
  unfold afterBody
  split <;> simp

theorem balanced_if (h : ∀ p ∈ parts, p.Balanced) : Balanced (ifSteps parts) := by
  intro n
  unfold ifSteps
  split
  · next test yes rest =>
    obtain ⟨htest, hyes, hrest⟩ := List.forall_mem_cons.mp h |>.imp_right List.forall_mem_cons.mp
    cases rest with
    | nil => simp [header, headed, WriterStep.levelFrom, htest.enclosed _ n, hyes.statement _ n]
    | cons no rest =>
      have hno := (hrest no (by simp)).statement .otherwise n
      simp [header, headed, WriterStep.levelFrom, htest.enclosed _ n, hyes.statement _ n, hno]
  · rfl

theorem balanced_var (noIn : Bool) (h : ∀ p ∈ parts, p.Balanced) :
    Balanced (varSteps parts noIn) := by
  intro n
  have hall : Balanced (separated (parts.map fun p => p.statement (.declared noIn))) :=
    balanced_separated (List.forall_mem_map.mpr fun p hp => (h p hp).statement _)
  simp [varSteps, WriterStep.levelFrom, hall n]

theorem balanced_declared (data : Node) (noIn : Bool) (h : ∀ p ∈ parts, p.Balanced) :
    Balanced (declaredSteps data parts noIn) := by
  intro n
  unfold declaredSteps
  cases parts with
  | nil => rfl
  | cons value parts =>
    have hvalue := (h value (by simp)).expr { use := .operand Precedence.assignment, noIn } n
    simp [Part.operand, WriterStep.levelFrom, hvalue]

theorem balanced_headerPart {p : Part} (h : p.Balanced) : Balanced (headerPartSteps p) := by
  intro n
  unfold headerPartSteps
  split <;> simp [WriterStep.levelFrom, h.enclosed _ n]

theorem balanced_for (h : ∀ p ∈ parts, p.Balanced) : Balanced (forSteps parts) := by
  intro n
  unfold forSteps
  split
  · next start test update body rest =>
    have hstart := (h start (by simp)).statement .loopStart n
    have htest := balanced_headerPart (h test (by simp)) n
    have hupdate := balanced_headerPart (h update (by simp)) n
    have hbody := (h body (by simp)).statement .body n
    simp [headed, WriterStep.levelFrom, hstart, htest, hupdate, hbody]
  · rfl

theorem balanced_forIn (h : ∀ p ∈ parts, p.Balanced) : Balanced (forInSteps parts) := by
  intro n
  unfold forInSteps
  split
  · next start object body rest =>
    have hstart := (h start (by simp)).statement .loopStart n
    have hobject := (h object (by simp)).enclosed Precedence.comma n
    have hbody := (h body (by simp)).statement .body n
    simp [headed, WriterStep.levelFrom, hstart, hobject, hbody]
  · rfl

theorem balanced_switch (data : Node) (h : ∀ p ∈ parts, p.Balanced) :
    Balanced (switchSteps o data parts) := by
  intro n
  unfold switchSteps
  cases parts with
  | nil => rfl
  | cons value clauses =>
    obtain ⟨hvalue, hclauses⟩ := List.forall_mem_cons.mp h
    cases clauses with
    | nil => simp [header, headed, WriterStep.levelFrom, hvalue.enclosed _ n]
    | cons first rest =>
      obtain ⟨hfirst, hrest⟩ := List.forall_mem_cons.mp hclauses
      have hall : Balanced (rest.flatMap fun c => c.statement (.switchClause false)) :=
        balanced_flatMap fun c hc => (hrest c hc).statement _
      simp [header, headed, WriterStep.levelFrom, hvalue.enclosed _ n, hfirst.statement _ (n + 1),
        hall (n + 1)]

theorem balanced_try (h : ∀ p ∈ parts, p.Balanced) : Balanced (trySteps parts) := by
  intro n
  cases parts with
  | nil => rfl
  | cons body clauses =>
    obtain ⟨hbody, hclauses⟩ := List.forall_mem_cons.mp h
    have hall : Balanced (clauses.flatMap fun c => .space :: c.statement .tryClause) :=
      balanced_flatMap fun c hc => (hclauses c hc).statement _
    simp [trySteps, WriterStep.levelFrom, hbody.statement _ n, hall n]

theorem balanced_switchClause (data : Node) (first : Bool) (h : ∀ p ∈ parts, p.Balanced) :
    Balanced (switchClauseSteps o data parts first) := by
  intro n
  have hrest : levelAfter (listed (parts.drop 1)) n = n :=
    balanced_listed (fun p hp => h p (List.mem_of_mem_drop hp)) n
  unfold switchClauseSteps
  dsimp only
  split
  · cases parts with
    | nil => simp [WriterStep.levelFrom, listed]
    | cons test parts =>
      rw [List.drop_one, List.tail_cons] at hrest
      simp [WriterStep.levelFrom, (h test (by simp)).enclosed _ n, hrest]
  · simp [WriterStep.levelFrom, balanced_listed h n]

theorem balanced_tryClause (data : Node) (h : ∀ p ∈ parts, p.Balanced) :
    Balanced (tryClauseSteps data parts) := by
  intro n
  unfold tryClauseSteps
  split
  · cases parts with
    | nil => rfl
    | cons name rest =>
      obtain ⟨hname, hrest⟩ := List.forall_mem_cons.mp h
      have hhandler : (rest.getLast?.getD name).Balanced := by
        cases hlast : rest.getLast? with
        | none => exact hname
        | some handler => exact hrest handler (List.mem_of_getLast? hlast)
      dsimp only
      split
      · next guard handler =>
        simp [headed, WriterStep.levelFrom, (hrest guard (by simp)).enclosed _ n,
          (hrest handler (by simp)).statement _ n]
      · simp [headed, WriterStep.levelFrom, hhandler.statement _ n]
  · cases parts with
    | nil => rfl
    | cons body rest => exact (h body (by simp)).statement .block n

theorem balanced_bareStatement (t : Tree) (h : ∀ p ∈ parts, p.Balanced) :
    Balanced (bareStatement o t parts) := by
  intro n
  have hfunction := balanced_function t.data h n
  have hblock : levelAfter (blockSteps o t.data parts) n = n := balanced_block t.data h n
  have hvar := balanced_var false h n
  have hif := balanced_if h n
  have hfor := balanced_for h n
  have hforIn := balanced_forIn h n
  have hswitch : levelAfter (switchSteps o t.data parts) n = n := balanced_switch t.data h n
  have htry := balanced_try h n
  have hother : ∀ place, levelAfter (exprSteps o t parts place) n = n :=
    fun place => balanced_exprSteps t h place n
  have hexpr : ∀ p ∈ parts, ∀ place n, levelAfter (p.expr place) n = n :=
    fun p hp place => (h p hp).expr place
  have hstatement : ∀ p ∈ parts, ∀ role n, levelAfter (p.statement role) n = n :=
    fun p hp role => (h p hp).statement role
  unfold bareStatement
  dsimp only
  split
  all_goals simp_all [WriterStep.levelFrom, header, headed, Part.enclosed, Part.operand]
  -- what is left is the statement behind a label
  split <;> simp_all

theorem balanced_listedSteps (t : Tree) (first : Bool) (h : ∀ p ∈ parts, p.Balanced) :
    Balanced (listedSteps o t parts first) := by
  intro n
  simp [listedSteps, WriterStep.levelFrom, balanced_bareStatement t h n]

theorem balanced_bodyRole (t : Tree) (h : ∀ p ∈ parts, p.Balanced) :
    Balanced (bodyRole o t parts) := by
  intro n
  unfold bodyRole
  split
  · exact balanced_body t.data h n
  · simp [WriterStep.levelFrom, balanced_listedSteps t true h (n + 1)]

theorem balanced_otherwiseRole (t : Tree) (h : ∀ p ∈ parts, p.Balanced) :
    Balanced (otherwiseRole o t parts) := by
  intro n
  unfold otherwiseRole
  split
  · simp [WriterStep.levelFrom, balanced_if h n]
  · exact balanced_bodyRole t h n

theorem balanced_loopStart (t : Tree) (h : ∀ p ∈ parts, p.Balanced) :
    Balanced (loopStartRole o t parts) := by
  intro n
  unfold loopStartRole
  split
  · rfl
  · split
    · exact balanced_var true h n
    · exact balanced_exprSteps t h _ n

theorem balanced_statementSteps (t : Tree) (h : ∀ p ∈ parts, p.Balanced) (role : Role) :
    Balanced (statementSteps o t parts role) := by
  cases role with
  | listed first => exact balanced_listedSteps t first h
  | body => exact balanced_bodyRole t h
  | otherwise => exact balanced_otherwiseRole t h
  | block => exact balanced_block t.data h
  | switchClause first => exact balanced_switchClause t.data first h
  | tryClause => exact balanced_tryClause t.data h
  | loopStart => exact balanced_loopStart t h
  | declared noIn => exact balanced_declared t.data noIn h

/-! ## Trees -/

/-- The part of any tree, well-formed or not, leaves the level as it was. -/
theorem balanced_part (o : RenderOptions) (t : Tree) : (part o t).Balanced := by
  induction t using Tree.induction with
  | node id data children ih =>
    have hparts : ∀ p ∈ children.map (part o), p.Balanced := List.forall_mem_map.mpr ih
    rw [part, partsOf_eq]
    exact ⟨balanced_exprSteps _ hparts, balanced_statementSteps _ hparts⟩

/-- Writing a statement, in any role, leaves the writer at its level. -/
theorem level_statementAt (o : RenderOptions) (t : Tree) (role : Role) (w : Writer) :
    (w.run (statementAt o t role)).level = w.level := by
  have hframe := congrArg (·.2.2) (frame_run w (statementAt o t role))
  exact hframe.trans ((balanced_part o t).statement role w.level)

end Render
end ScriptPress
