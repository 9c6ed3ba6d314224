import Mathlib.Data.List.Forall2
import ScriptPress.Proofs.Printing.Alone
import ScriptPress.Proofs.Printing.Steps

/-! # Instructions that do the same

Two lists of instructions do the same when every writer is left in one state by both. What is
written of two trees does the same when what is written of their parts does, and a comment may
change places with the end of a line before it.
-/
namespace ScriptPress.Render
variable {o : RenderOptions}

/-- Instructions that leave every writer in one state. -/
def SameRun (xs ys : List WriterStep) : Prop := ∀ w : Writer, w.run xs = w.run ys

namespace SameRun
variable {xs ys zs xs' ys' : List WriterStep}

theorem refl (xs : List WriterStep) : SameRun xs xs := fun _ => rfl

theorem of_eq (h : xs = ys) : SameRun xs ys := fun _ => by rw [h]

theorem symm (h : SameRun xs ys) : SameRun ys xs := fun w => (h w).symm

theorem trans (h : SameRun xs ys) (h' : SameRun ys zs) : SameRun xs zs :=
  fun w => (h w).trans (h' w)

theorem append (h : SameRun xs ys) (h' : SameRun xs' ys') : SameRun (xs ++ xs') (ys ++ ys') := by
  intro w
  rw [Writer.run_append, Writer.run_append, h, h']

theorem cons (step : WriterStep) (h : SameRun xs ys) : SameRun (step :: xs) (step :: ys) :=
  fun w => h (w.step step)

theorem behind (zs : List WriterStep) (h : SameRun xs ys) : SameRun (xs ++ zs) (ys ++ zs) :=
  h.append (.refl zs)

/-- Equal instructions make one text. -/
theorem write (h : SameRun xs ys) (o : RenderOptions) : write o xs = write o ys := by
  rw [Render.write, Render.write, h]

/-- A comment stands on a line of its own, whether or not the line before it is ended first. -/
theorem comment_newline (text : String) :
    SameRun [.comment text, .newline] [.newline, .comment text] := by
  intro w
  change (w.comment text).newline = w.newline.comment text
  by_cases hw : w.compact = true
  · simp [Writer.comment, Writer.newline, hw]
  have hidem : ∀ v : Writer, v.newline.newline = v.newline := by
    intro v
    by_cases hv : (v.compact || v.atLineStart) = true
    · simp [Writer.newline, hv]
    · simp [Writer.newline, hv, Writer.push]
  have hcompact : w.newline.compact = w.compact := by
    unfold Writer.newline
    split <;> rfl
  rw [Writer.comment, Writer.comment, hcompact, if_neg hw, if_neg hw, hidem, hidem]

theorem comments_newline (cs : List String) :
    SameRun (cs.map .comment ++ [.newline]) (.newline :: cs.map .comment) := by
  induction cs with
  | nil => exact .refl _
  | cons c cs ih =>
    have hinner : SameRun (.comment c :: (cs.map .comment ++ [.newline]))
        (.comment c :: .newline :: cs.map .comment) := .cons _ ih
    exact hinner.trans ((comment_newline c).behind (cs.map .comment))

/-- Items in pairs that do the same. -/
theorem separated {xss yss : List (List WriterStep)} (h : List.Forall₂ SameRun xss yss) :
    SameRun (separated xss) (separated yss) := by
  induction h with
  | nil => exact .refl _
  | cons hx hall ih =>
    cases hall with
    | nil => exact hx
    | cons => exact hx.append (.cons _ (.cons _ ih))

end SameRun

theorem infixed_same {left left' right right' : List WriterStep} (operator : String)
    (h : SameRun left left') (h' : SameRun right right') :
    SameRun (infixed left operator right) (infixed left' operator right') :=
  h.append (.cons _ (.cons _ (.cons _ h')))

/-! ## Comments and their nodes -/

/-- Comments as they are written. -/
def notes (o : RenderOptions) (cs : List String) : List WriterStep :=
  if o.writesComments then cs.map .comment else []

@[simp] theorem notes_nil (o : RenderOptions) : notes o [] = [] := by rw [notes, List.map_nil, ite_self]

theorem notes_append (o : RenderOptions) (cs cs' : List String) :
    notes o (cs ++ cs') = notes o cs ++ notes o cs' := by
  unfold notes
  split
  · exact List.map_append
  · rfl

theorem notes_newline (o : RenderOptions) (cs : List String) :
    SameRun (notes o cs ++ [.newline]) (.newline :: notes o cs) := by
  unfold notes
  split
  · exact .comments_newline cs
  · exact .refl _

section
variable {id id' : NodeId} {data data' : Node} {children : List Tree}

theorem containsCall_node (id : NodeId) (data : Node) (ts : List Tree) :
    (Tree.node id data ts).containsCall = (data.tag == .call
      || ((data.tag == .getProp || data.tag == .getElem)
        && ts.head?.any Tree.containsCall)) := by
  unfold Tree.containsCall
  split
  · next h => simp [h]
  · next h => cases ts <;> simp [h]
  · next h => cases ts <;> simp [h]
  · simp_all

theorem needsParens_congr (h : data'.core = data.core) (place : Place) :
    needsParens (.node id' data' children) place = needsParens (.node id data children) place := by
  have htag : data'.tag = data.tag := congrArg Core.tag h
  have hdatum : data'.datum = data.datum := congrArg Core.datum h
  have hpayload : data'.payload = data.payload := congrArg Core.payload h
  have hform : data'.properties.flag .postfixForm = data.properties.flag .postfixForm :=
    congrArg Core.postfixForm h
  have hcall : (Tree.node id' data' children).containsCall
      = (Tree.node id data children).containsCall := by
    unfold Tree.containsCall
    rw [htag]
  unfold needsParens
  rw [hcall]
  simp only [Tree.data, opensOtherStatement, isInOperation, isWholeNumber, Node.precedence,
    Node.data?, htag, hdatum, hpayload, hform]
  rfl

/-- What is written of a statement depends on its core and on the comments at its end. -/
theorem bareSteps_congr (h : data'.core = data.core) (htrailing : data'.trailing = data.trailing) :
    bareSteps o (.node id' data' children) = bareSteps o (.node id data children) := by
  have htag : data'.tag = data.tag := congrArg Core.tag h
  have hdatum : data'.datum = data.datum := congrArg Core.datum h
  have hpayload : data'.payload = data.payload := congrArg Core.payload h
  have hform : data'.properties.flag .postfixForm = data.properties.flag .postfixForm :=
    congrArg Core.postfixForm h
  have hcomments : trailingComments o data' = trailingComments o data := by
    change notes o data'.trailing = notes o data.trailing
    rw [htrailing]
  have hfunction : ∀ parts, functionSteps data' parts = functionSteps data parts := fun parts => by
    simp only [functionSteps, Node.function?, hpayload]
  have hexpr : ∀ parts place, exprSteps o (.node id' data' children) parts place
      = exprSteps o (.node id data children) parts place := fun parts place => by
    have hparens : needsParens (.node id' data' children) place
        = needsParens (.node id data children) place := needsParens_congr h place
    unfold exprSteps
    rw [hparens]
    simp only [Tree.data, bareExpr, hfunction, Node.data?, Node.operator, htag, hdatum, hpayload,
      hform]
    rfl
  unfold bareSteps bareStatement
  simp only [Tree.data, Tree.children, hfunction, hexpr, blockSteps, blockRest, switchSteps,
    hcomments, htag]

end

/-! ## Lists of parts -/

section
variable {α β : Type} {R : α → β → Prop} {as : List α} {bs : List β}

/-- Items that are put together from parts in pairs. -/
theorem separated_same {f : α → List WriterStep} {g : β → List WriterStep}
    (h : List.Forall₂ R as bs) (hstep : ∀ a b, R a b → SameRun (f a) (g b)) :
    SameRun (separated (as.map f)) (separated (bs.map g)) := by
  refine .separated ?_
  rw [List.forall₂_map_left_iff, List.forall₂_map_right_iff]
  exact h.imp hstep

/-- Items one behind another; the first one knows that it is the first. -/
def inOrder (st : Bool → β → List WriterStep) : Bool → List β → List WriterStep
  | _, [] => []
  | first, b :: bs => st first b ++ inOrder st false bs

theorem inOrder_false (st : Bool → β → List WriterStep) (bs : List β) :
    inOrder st false bs = bs.flatMap (st false) := by
  induction bs with
  | nil => rfl
  | cons b bs ih => rw [inOrder, ih, List.flatMap_cons]

theorem inOrder_same {f : Bool → α → List WriterStep} {g : Bool → β → List WriterStep}
    {first : Bool} (h : List.Forall₂ R as bs)
    (hstep : ∀ a b, R a b → ∀ first, SameRun (f first a) (g first b)) :
    SameRun (inOrder f first as) (inOrder g first bs) := by
  induction h generalizing first with
  | nil => exact .refl _
  | cons hab _ ih => exact (hstep _ _ hab first).append ih

theorem clausesAt_inOrder (ts : List Tree) :
    clausesAt o ts = inOrder (fun first t => statementAt o t (.switchClause first)) true ts := by
  cases ts with
  | nil => rfl
  | cons t ts => rw [clausesAt, inOrder, inOrder_false]

end

/-! ## Arrays -/

/-- The elements of an array from one on, each with the comma that belongs to it. -/
def elementsAt (o : RenderOptions) : List Tree → List WriterStep
  | [] => []
  | e :: rest =>
    (if e.tag == .empty then [.token ","]
      else exprAt o e { use := .operand Precedence.assignment }
        ++ if rest.isEmpty then [] else [.token ","])
      ++ (if rest.head?.any (·.tag != .empty) then [.space] else []) ++ elementsAt o rest

/-- The comma behind a hole at the end. -/
def lastComma (parts : List Part) : List WriterStep :=
  if parts.getLast?.any (·.tag == .empty) then [.token ","] else []

theorem elementSteps_eq (e : Tree) (rest : List Tree) :
    (if e.tag == .empty then [] else exprAt o e { use := .operand Precedence.assignment })
        ++ elementSteps (rest.map (part o)) ++ lastComma ((e :: rest).map (part o))
      = elementsAt o (e :: rest) := by
  induction rest generalizing e with
  | nil =>
    by_cases he : e.tag = .empty <;> simp [elementsAt, elementSteps, lastComma, he]
  | cons e' rest ih =>
    have hlast : lastComma ((e :: e' :: rest).map (part o))
        = lastComma ((e' :: rest).map (part o)) := by
      simp [lastComma]
    rw [hlast, elementsAt, ← ih e', List.map_cons, elementSteps]
    by_cases he : e.tag = .empty <;> by_cases he' : e'.tag = .empty <;> simp [he, he']

theorem arraySteps_eq (parts : List Tree) :
    arraySteps (parts.map (part o)) = .token "[" :: elementsAt o parts ++ [.token "]"] := by
  cases parts with
  | nil => rfl
  | cons e rest =>
    rw [← elementSteps_eq]
    simp [arraySteps, lastComma]

/-- Elements that are holes together, or expressions that do the same. -/
theorem elementsAt_same {ts us : List Tree} (h : List.Forall₂ (fun t u => t.tag = u.tag
      ∧ (t.tag ≠ .empty → ∀ place, SameRun (exprAt o t place) (exprAt o u place))) ts us) :
    SameRun (elementsAt o ts) (elementsAt o us) := by
  induction h with
  | nil => exact .refl _
  | @cons t u ts us hhead hrest ih =>
    obtain ⟨htag, hexpr⟩ := hhead
    have hempty : ts.isEmpty = us.isEmpty := by
      cases hrest <;> rfl
    have hnext : ts.head?.any (·.tag != .empty) = us.head?.any (·.tag != .empty) := by
      cases hrest with
      | nil => rfl
      | cons hnext _ => simp [hnext.1]
    rw [elementsAt, elementsAt, ← htag, hempty, hnext]
    refine (SameRun.append ?_ (.refl _)).append ih
    split
    · exact .refl _
    · next hne => exact (hexpr (by simpa using hne) _).behind _

end ScriptPress.Render
