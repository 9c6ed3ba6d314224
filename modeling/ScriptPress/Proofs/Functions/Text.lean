import ScriptPress.Proofs.Functions.Index
import ScriptPress.Proofs.Printing.Alone

/-! # Functions in place

Wherever a function stands in a script, what is written of the script has what is written of the
function in it, from the keyword to the closing brace. So the compact text of a function is the
same in place and alone, and it is its head around the compact text of its body.
-/
namespace ScriptPress
open Lexer Tree

namespace Render
variable {o : RenderOptions} {d : Dialect} {t : Tree} {id : NodeId} {data : Node}
variable {xs ys : List WriterStep} {ts us : List Tree}

/-- What is written of a function. -/
def functionText (o : RenderOptions) (t : Tree) : List WriterStep :=
  functionSteps t.data (partsOf o t.children)

theorem functionText_eq {f : FunctionData} {body : Tree} (h : data.payload = .function f) :
    functionText o (.node id data [body]) = functionAt o f body := by
  rw [functionText, partsOf_eq]
  exact functionSteps_eq h

/-- Instructions that have in them what is written of each function in trees. -/
def Holds (o : RenderOptions) (steps : List WriterStep) (ts : List Tree) : Prop :=
  ∀ f ∈ functionsIn ts, functionText o f <:+: steps

namespace Holds

theorem nil (steps : List WriterStep) : Holds o steps [] := fun _ hf => nomatch hf

theorem grow (h : Holds o xs ts) (hs : xs <:+: ys) : Holds o ys ts :=
  fun f hf => (h f hf).trans hs

theorem cons (h : Holds o xs ts) (step : WriterStep) : Holds o (step :: xs) ts :=
  h.grow (List.suffix_cons step xs).isInfix

theorem snoc (h : Holds o xs ts) (ys : List WriterStep) : Holds o (xs ++ ys) ts :=
  h.grow (List.prefix_append xs ys).isInfix

theorem behind (h : Holds o ys ts) (xs : List WriterStep) : Holds o (xs ++ ys) ts :=
  h.grow (List.suffix_append xs ys).isInfix

theorem append (h : Holds o xs ts) (h' : Holds o ys us) : Holds o (xs ++ ys) (ts ++ us) := by
  intro f hf
  rw [functionsIn_append, List.mem_append] at hf
  exact hf.elim (h.snoc ys f) (h'.behind xs f)

/-- Two parts, one behind the other. -/
theorem pair (h : Holds o xs [t]) (h' : Holds o ys us) : Holds o (xs ++ ys) (t :: us) := h.append h'

theorem flatMap {α : Type} {items : List α} {steps : α → List WriterStep} {trees : α → List Tree}
    (h : ∀ a ∈ items, Holds o (steps a) (trees a)) :
    Holds o (items.flatMap steps) (items.flatMap trees) := by
  induction items with
  | nil => exact nil _
  | cons a items ih =>
    obtain ⟨ha, hrest⟩ := List.forall_mem_cons.mp h
    exact ha.append (ih hrest)

theorem separated {α : Type} {items : List α} {steps : α → List WriterStep} {trees : α → List Tree}
    (h : ∀ a ∈ items, Holds o (steps a) (trees a)) :
    Holds o (separated (items.map steps)) (items.flatMap trees) := by
  induction items with
  | nil => exact nil _
  | cons a items ih =>
    obtain ⟨ha, hrest⟩ := List.forall_mem_cons.mp h
    cases items with
    | nil => simpa [Render.separated] using ha
    | cons b items => exact ha.append (((ih hrest).cons .space).cons (.token ","))

/-- Each of some trees on its own. -/
theorem each {steps : Tree → List WriterStep} (h : ∀ t ∈ ts, Holds o (steps t) [t]) :
    Holds o (Render.separated (ts.map steps)) ts := by
  have hall : Holds o _ (ts.flatMap fun t => [t]) := separated h
  rwa [List.flatMap_singleton'] at hall

theorem all {steps : Tree → List WriterStep} (h : ∀ t ∈ ts, Holds o (steps t) [t]) :
    Holds o (ts.flatMap steps) ts := by
  have hall : Holds o _ (ts.flatMap fun t => [t]) := flatMap h
  rwa [List.flatMap_singleton'] at hall

/-- A node that is no function has the functions of its children. -/
theorem node {core : Core} (hdata : data.core = core) (hcore : core.tag ≠ .kwFunction)
    (h : Holds o xs ts) : Holds o xs [.node id data ts] := by
  have htag : (Tree.node id data ts).tag ≠ .kwFunction := by
    rw [← congrArg Core.tag hdata] at hcore
    exact hcore
  intro f hf
  rw [functionsIn_other htag] at hf
  exact h f hf

/-- A function has itself and the functions of its body. -/
theorem function {f : FunctionData} {body : Tree}
    (htag : data.tag = .kwFunction) (hpayload : data.payload = .function f)
    (h : Holds o (statementAt o body .block) [body]) :
    Holds o (functionAt o f body) [.node id data [body]] := by
  intro g hg
  rw [functionsIn_function (t := .node id data [body]) htag, List.mem_cons] at hg
  rcases hg with rfl | hg
  · exact functionText_eq (o := o) hpayload ▸ List.infix_rfl
  · exact ((((h.cons .space).cons (.token ")")).behind _).cons _ |>.cons _) g hg

theorem leaf {core : Core} (hdata : data.core = core) (hcore : core.tag ≠ .kwFunction)
    (xs : List WriterStep) : Holds o xs [.node id data []] := node hdata hcore (nil xs)

theorem named {ok : String → Prop} {name : String} (h : IsNamed ok name t)
    (xs : List WriterStep) : Holds o xs [t] := by
  obtain ⟨hdata, -⟩ := h
  exact leaf hdata.core (by simp) xs

theorem key (h : IsKey d t) (xs : List WriterStep) : Holds o xs [t] := by
  cases h with
  | name hdata | string hdata | number hdata => exact leaf hdata.core (by simp) xs

end Holds

/-! ## Expressions -/

/-- What is written of an expression, at any place, has its functions in it. -/
def ExprHolds (o : RenderOptions) (t : Tree) : Prop := ∀ place, Holds o (exprAt o t place) [t]

theorem exprHolds_of_bare (h : ∀ place, Holds o (bareAt o t place) [t]) : ExprHolds o t := by
  intro place
  rw [exprAt_eq]
  split
  · exact ((h _).cons (.token "(")).snoc _
  · exact h place

theorem Holds.infixed (h : Holds o xs ts) (h' : Holds o ys us) (operator : String) :
    Holds o (infixed xs operator ys) (ts ++ us) :=
  h.append (((h'.cons .space).cons (.token operator)).cons .space)

theorem arguments_hold {args : List Tree} (h : ∀ t ∈ args, ExprHolds o t) :
    Holds o (argumentSteps (args.map (part o))) args := by
  have hall := Holds.each fun t ht => h t ht { use := .operand Precedence.assignment }
  have hsteps : argumentSteps (args.map (part o)) = .token "(" :: separated
      (args.map fun t => exprAt o t { use := .operand Precedence.assignment }) ++ [.token ")"] := by
    simp [argumentSteps, Function.comp_def]
  rw [hsteps]
  exact (hall.cons (.token "(")).snoc _

/-- What is written of an element, unless it is a hole. -/
def ElementHolds (o : RenderOptions) (t : Tree) : Prop :=
  (t.tag ≠ .empty → ExprHolds o t) ∧ (t.tag = .empty → functionsIn [t] = [])

theorem ElementHolds.item (h : ElementHolds o t) (place : Place) (xs ys : List WriterStep) :
    Holds o (if t.tag == .empty then xs else ys ++ exprAt o t place) [t] := by
  by_cases ht : t.tag = .empty
  · intro f hf
    rw [h.2 ht] at hf
    cases hf
  · rw [if_neg (by simpa using ht)]
    exact (h.1 ht place).behind ys

theorem elements_hold {parts : List Tree} (h : ∀ t ∈ parts, ElementHolds o t) :
    Holds o (elementSteps (parts.map (part o))) parts := by
  induction parts with
  | nil => exact .nil _
  | cons t parts ih =>
    obtain ⟨ht, hrest⟩ := List.forall_mem_cons.mp h
    have hitem := ht.item { use := .operand Precedence.assignment } [.token ","]
      [.token ",", .space]
    rw [List.map_cons, elementSteps, part_tag, part_enclosed]
    exact hitem.pair (ih hrest)

theorem array_holds {parts : List Tree} (h : ∀ t ∈ parts, ElementHolds o t) :
    Holds o (arraySteps (parts.map (part o))) parts := by
  cases parts with
  | nil => exact .nil _
  | cons t parts =>
    obtain ⟨ht, hrest⟩ := List.forall_mem_cons.mp h
    have hitem := ht.item { use := .operand Precedence.assignment } [] []
    rw [List.map_cons, arraySteps]
    simp only [part_tag, part_enclosed]
    exact (((hitem.pair (elements_hold hrest)).cons (.token "[")).snoc _).snoc _

theorem pairs_hold {pairs : List (Tree × Tree)} (hkeys : ∀ p ∈ pairs, IsKey d p.1)
    (h : ∀ p ∈ pairs, ExprHolds o p.2) :
    Holds o (separated (pairs.map (pairSteps o))) (flatPairs pairs) := by
  refine Holds.separated fun p hp => ?_
  have hvalue := h p hp { use := .operand Precedence.assignment }
  exact Holds.pair (.key (hkeys p hp) [_, _, _]) hvalue

theorem expr_holds {core : Core} {children : List Tree} (hdata : data.core = core)
    (hcore : core.tag ≠ .kwFunction)
    (h : ∀ place, Holds o (bareAt o (.node id data children) place) children) :
    ExprHolds o (.node id data children) :=
  exprHolds_of_bare fun place => .node hdata hcore (h place)

/-! ## Statements -/

/-- What is written of a statement, in each of its roles, has its functions in it. -/
structure StatementHolds (o : RenderOptions) (t : Tree) : Prop where
  listed : ∀ first, Holds o (statementAt o t (.listed first)) [t]
  body : Holds o (statementAt o t .body) [t]
  otherwise : Holds o (statementAt o t .otherwise) [t]

theorem listed_holds {parts : List Tree} (h : ∀ t ∈ parts, StatementHolds o t) :
    Holds o (listedAt o parts) parts := by
  cases parts with
  | nil => exact .nil _
  | cons t parts =>
    obtain ⟨ht, hrest⟩ := List.forall_mem_cons.mp h
    exact (ht.listed true).pair (.all fun t ht => (hrest t ht).listed false)

theorem blockRest_holds {parts : List Tree} (h : ∀ t ∈ parts, StatementHolds o t) :
    Holds o (blockRest o data (parts.map (part o))) parts := by
  rw [blockRest, listed_eq]
  exact ((listed_holds h).snoc _).snoc _

theorem block_holds {parts : List Tree} (h : ∀ t ∈ parts, StatementHolds o t) :
    Holds o (blockSteps o data (parts.map (part o))) parts :=
  ((blockRest_holds h).cons .indent).cons (.token "\x7b")

namespace StatementHolds

theorem listed_of_bare (h : Holds o (bareSteps o t) [t]) (first : Bool) :
    Holds o (statementAt o t (.listed first)) [t] := by
  rw [statementAt_listed]
  exact h.behind _

/-- The roles of a statement that is no block. -/
theorem of_bare (hblock : t.tag ≠ .block) (h : Holds o (bareSteps o t) [t]) :
    StatementHolds o t := by
  have hbody : Holds o (statementAt o t .body) [t] := by
    rw [statementAt_body, if_neg (by simpa using hblock)]
    exact ((listed_of_bare h true).cons .indent).snoc _
  refine ⟨listed_of_bare h, hbody, ?_⟩
  rw [statementAt_otherwise]
  split
  · next hif =>
    rw [← bareSteps_ofIf (by simpa using hif)]
    exact (h.cons .space).behind _
  · exact hbody

theorem of_block {parts : List Tree} (hdata : data.core = { tag := .block })
    (hall : ∀ t ∈ parts, StatementHolds o t) : StatementHolds o (.node id data parts) := by
  have htag : (Tree.node id data parts).tag = .block := congrArg Core.tag hdata
  have hbare : Holds o (bareSteps o (.node id data parts)) [.node id data parts] := by
    rw [bareSteps_block hdata]
    exact .node hdata (by simp) ((block_holds hall).snoc _)
  have hbody : Holds o (statementAt o (.node id data parts) .body) [.node id data parts] := by
    rw [statementAt_body, if_pos (by simp [htag])]
    exact .node hdata (by simp) (((((blockRest_holds hall).behind (leadingComments o data)).cons
      .indent).cons (.token "\x7b")).cons .space)
  refine ⟨listed_of_bare hbare, hbody, ?_⟩
  rw [statementAt_otherwise, if_neg (by simp [htag])]
  exact hbody

/-- A statement that is neither a function nor a block. -/
theorem of_node {core : Core} {children : List Tree} (hdata : data.core = core)
    (hcore : core.tag ≠ .kwFunction ∧ core.tag ≠ .block)
    (h : Holds o (bareSteps o (.node id data children)) children) :
    StatementHolds o (.node id data children) := by
  refine of_bare ?_ (.node hdata hcore.1 h)
  rw [← congrArg Core.tag hdata] at hcore
  exact hcore.2

end StatementHolds

theorem header_holds {test : Tree} {rest : List WriterStep} (keyword : String)
    (ht : ExprHolds o test) (h : Holds o rest ts) :
    Holds o (headerAt o keyword test rest) (test :: ts) :=
  ((ht _).behind (headed keyword)).pair (h.cons (.token ")"))

theorem var_holds {names : List Tree} {noIn : Bool}
    (h : ∀ t ∈ names, Holds o (statementAt o t (.declared noIn)) [t]) :
    Holds o (varAt o names noIn) names := (Holds.each h).cons (.token "var")

theorem headerPart_holds (h : ElementHolds o t) : Holds o (headerPartAt o t) [t] :=
  h.item { use := .operand Precedence.comma } [.token ";"] [.token ";", .space]

theorem clauses_hold {clauses : List Tree}
    (h : ∀ t ∈ clauses, ∀ first, Holds o (statementAt o t (.switchClause first)) [t]) :
    Holds o (clausesAt o clauses) clauses := by
  cases clauses with
  | nil => exact .nil _
  | cons t clauses =>
    obtain ⟨ht, hrest⟩ := List.forall_mem_cons.mp h
    exact (ht true).pair (.all fun t ht => hrest t ht false)

/-- What is written of a tree, by its form, has its functions in it. -/
def FormHolds (o : RenderOptions) : Form → Tree → Prop
  | .expr, t => ExprHolds o t
  | .element, t | .part, t => ElementHolds o t
  | .declared, t => ∀ noIn, Holds o (statementAt o t (.declared noIn)) [t]
  | .start, t => Holds o (statementAt o t .loopStart) [t]
  | .statement _ _, t => StatementHolds o t
  | .block _ _, t => Holds o (statementAt o t .block) [t]
  | .clause _, t => ∀ first, Holds o (statementAt o t (.switchClause first)) [t]
  | .handler _ _, t => Holds o (statementAt o t .tryClause) [t]

theorem hole_holds (hdata : data.core = { tag := .empty }) :
    ElementHolds o (.node id data []) := by
  have htag : (Tree.node id data []).tag = .empty := congrArg Core.tag hdata
  refine ⟨fun h => absurd htag h, fun _ => ?_⟩
  rw [functionsIn_other (by simp [htag])]
  rfl

theorem expr_element (ht : Formed d .expr t) (h : ExprHolds o t) : ElementHolds o t :=
  ⟨fun _ => h, fun hempty => absurd hempty ht.expr_tag.1⟩

end Render

open Render

theorem Formed.holds {d : Dialect} {form : Form} {t : Tree} (h : Formed d form t)
    (o : RenderOptions) : FormHolds o form t := by
  induction h with
  | leaf hdata hleaf =>
    refine expr_holds hdata.core ?_ fun place => .nil _
    cases hleaf <;> simp
  | array hdata _ ih =>
    refine expr_holds hdata.core (by simp) fun place => ?_
    rw [bareAt_array hdata.core]
    exact array_holds ih
  | object hdata hkeys _ ih =>
    refine expr_holds hdata.core (by simp) fun place => ?_
    rw [bareAt_object hdata.core]
    exact ((pairs_hold hkeys ih).cons _).snoc _
  | function hdata _ _ ih =>
    refine exprHolds_of_bare fun place => ?_
    rw [bareAt_function hdata.core]
    exact .function (congrArg Core.tag hdata.core) (congrArg Core.payload hdata.core) ih
  | unary hdata _ _ ih =>
    refine expr_holds hdata.core (by simp) fun place => ?_
    rw [bareAt_unary hdata.core]
    exact (ih _).cons _
  | step hdata ht _ _ ih =>
    refine expr_holds hdata.core (by rcases ht with rfl | rfl <;> simp) fun place => ?_
    rw [bareAt_step hdata.core ht]
    split
    · exact (ih _).snoc _
    · exact (ih _).cons _
  | assign hdata _ _ _ _ ih ih' =>
    refine expr_holds hdata.core (by simp) fun place => ?_
    rw [bareAt_assign hdata.core]
    exact (ih _).infixed (ih' _) _
  | conditional hdata _ _ _ ih ih' ih'' =>
    refine expr_holds hdata.core (by simp) fun place => ?_
    rw [bareAt_conditional hdata.core]
    exact (ih _).infixed ((ih' _).infixed (ih'' _) _) _
  | binary hdata hop _ _ ih ih' =>
    obtain ⟨level, hlevel⟩ := hop.level
    refine expr_holds hdata.core (by rintro rfl; cases hlevel) fun place => ?_
    rw [bareAt_binary hdata.core hlevel]
    exact (ih _).infixed (ih' _) _
  | comma hdata _ _ ih ih' =>
    refine expr_holds hdata.core (by simp) fun place => ?_
    rw [bareAt_comma hdata.core]
    exact (ih _).pair (((ih' _).cons _).cons _)
  | call hdata _ _ ih ih' =>
    refine expr_holds hdata.core (by simp) fun place => ?_
    rw [bareAt_call hdata.core]
    exact (ih _).pair (arguments_hold ih')
  | @construct _ _ _ args hdata _ _ ih ih' =>
    refine expr_holds hdata.core (by simp) fun place => ?_
    rw [bareAt_construct hdata.core]
    refine Holds.pair ((ih _).cons _) ?_
    split
    · next hout =>
      have hnil : args = [] := by simpa using (Bool.and_eq_true_iff.mp hout).1
      rw [hnil]
      exact .nil _
    · exact arguments_hold ih'
  | property hdata _ hname ih =>
    refine expr_holds hdata.core (by simp) fun place => ?_
    rw [bareAt_property hdata.core hname]
    exact (ih _).pair (.named hname _)
  | index hdata _ _ ih ih' =>
    refine expr_holds hdata.core (by simp) fun place => ?_
    rw [bareAt_index hdata.core, List.append_assoc]
    exact (ih _).pair (((ih' _).cons _).snoc _)
  | hole hdata | noPart hdata => exact hole_holds hdata.core
  | element ht ih | part ht ih => exact expr_element ht ih
  | declared hdata => exact fun noIn => .leaf hdata.core (by simp) _
  | initialised hdata _ _ ih =>
    intro noIn
    rw [statementAt_declared _ hdata.core rfl]
    exact .node hdata.core (by simp) ((((ih _).cons _).cons _).cons _ |>.cons _)
  | noStart hdata => exact .leaf hdata.core (by simp) _
  | exprStart ht ih =>
    obtain ⟨hempty, hvar, -, -⟩ := ht.expr_tag
    change Holds o (statementAt o _ .loopStart) _
    rw [statementAt_loopStart, if_neg (by simpa using hempty), if_neg (by simpa using hvar)]
    exact ih _
  | varStart hdata _ _ ih =>
    have htag := congrArg Core.tag hdata.core
    simp only [Node.core] at htag
    change Holds o (statementAt o _ .loopStart) _
    rw [statementAt_loopStart, if_neg (by simp [Tree.tag, Tree.data, htag]),
      if_pos (by simp [Tree.tag, Tree.data, htag])]
    exact .node hdata.core (by simp) (var_holds fun t ht => ih t ht true)
  | block hdata _ _ ih =>
    change Holds o (statementAt o _ .block) _
    rw [statementAt_block]
    exact .node hdata.core (by simp) (block_holds ih)
  | functionStatement hdata _ _ ih =>
    have htag := congrArg Core.tag hdata.core
    simp only [Node.core] at htag
    refine .of_bare (by simp [Tree.tag, Tree.data, htag]) ?_
    rw [bareSteps_function hdata.core]
    exact (Holds.function htag (congrArg Core.payload hdata.core) ih).snoc _
  | blockStatement hdata _ ih => exact .of_block hdata.core ih
  | var hdata _ _ ih =>
    refine .of_node hdata.core (by simp) ?_
    rw [bareSteps_var hdata.core]
    exact (var_holds fun t ht => ih t ht false).snoc _
  | empty hdata | «return» hdata => exact .of_node hdata.core (by simp) (.nil _)
  | ifThen hdata _ _ ih ih' =>
    refine .of_node hdata.core (by simp) ?_
    rw [bareSteps_if hdata.core, ifSteps_then]
    exact header_holds _ ih ih'.body
  | ifElse hdata _ _ _ _ ih ih' ih'' =>
    refine .of_node hdata.core (by simp) ?_
    rw [bareSteps_if hdata.core, ifSteps_else]
    exact header_holds _ ih (ih'.body.pair ((ih''.otherwise.cons _).cons _))
  | «while» hdata _ _ ih ih' =>
    refine .of_node hdata.core (by simp) ?_
    rw [bareSteps_while hdata.core]
    exact header_holds _ ih ih'.body
  | doWhile hdata _ _ _ ih ih' =>
    refine .of_node hdata.core (by simp) ?_
    rw [bareSteps_do hdata.core]
    exact (ih.body.cons _).pair ((header_holds _ ih' (.nil _)).cons _)
  | «for» hdata _ _ _ _ ih ih' ih'' ih₃ =>
    refine .of_node hdata.core (by simp) ?_
    rw [bareSteps_for hdata.core]
    exact ((((Holds.behind ih _).append (headerPart_holds ih')).append
      (headerPart_holds ih'')).append (ih₃.body.cons _))
  | forIn hdata _ _ _ _ ih ih' ih'' =>
    refine .of_node hdata.core (by simp) ?_
    rw [bareSteps_forIn hdata.core]
    exact (((Holds.behind ih _).append ((ih' _).cons _)).append (ih''.body.cons _))
  | jump hdata ht => exact .of_node hdata.core (by rcases ht with rfl | rfl <;> simp) (.nil _)
  | jumpTo hdata ht _ hname =>
    exact .of_node hdata.core (by rcases ht with rfl | rfl <;> simp) (.named hname _)
  | returnValue hdata _ _ ih =>
    refine .of_node hdata.core (by simp) ?_
    rw [bareSteps_value hdata.core (.inl rfl)]
    exact ((ih _).cons _).snoc _
  | «with» hdata _ _ ih ih' =>
    refine .of_node hdata.core (by simp) ?_
    rw [bareSteps_with hdata.core]
    exact header_holds _ ih ih'.body
  | switch hdata _ _ _ _ ih ih' =>
    refine .of_node hdata.core (by simp) ?_
    rw [bareSteps_switch hdata.core]
    exact ((header_holds _ ih (((clauses_hold ih').cons _).cons _ |>.cons _)).snoc _).snoc _
  | case hdata _ _ _ ih ih' =>
    intro first
    rw [statementAt_case hdata.core, listed_eq]
    refine .node hdata.core (by simp) ?_
    exact (((ih _).cons _).behind _).pair ((listed_holds ih').cons _)
  | default hdata _ _ ih =>
    intro first
    rw [statementAt_default hdata.core, listed_eq]
    exact .node hdata.core (by simp) ((((listed_holds ih).cons _).cons _).behind _)
  | throw hdata _ _ ih =>
    refine .of_node hdata.core (by simp) ?_
    rw [bareSteps_value hdata.core (.inr rfl)]
    exact ((ih _).cons _).snoc _
  | «try» hdata _ _ _ _ _ _ ih ih' ih'' =>
    refine .of_node hdata.core (by simp) ?_
    rw [bareSteps_try hdata.core]
    refine Holds.pair ((Holds.cons ih _).cons _) (.all fun t ht => Holds.cons ?_ _)
    exact (List.mem_append.mp ht).elim (ih' t) (ih'' t)
  | «catch» hdata _ hname _ ih =>
    change Holds o (statementAt o _ .tryClause) _
    rw [statementAt_catch hdata.core hname]
    refine .node hdata.core (by simp) (Holds.pair (.named hname _) ?_)
    exact ((Holds.cons ih _).cons _).cons _
  | guarded hdata _ _ hname _ _ ih ih' =>
    change Holds o (statementAt o _ .tryClause) _
    rw [statementAt_guarded hdata.core hname, List.append_assoc]
    refine .node hdata.core (by simp) (Holds.pair (.named hname _) ?_)
    exact (((ih _).cons _).cons _).pair ((Holds.cons ih' _).cons _)
  | «finally» hdata _ _ ih =>
    change Holds o (statementAt o _ .tryClause) _
    rw [statementAt_finally hdata.core]
    exact .node hdata.core (by simp) ((Holds.cons ih _).cons _)
  | @label _ _ _ _ s _ _ hdata hname _ _ ih =>
    refine .of_node hdata.core (by simp) ?_
    rw [bareSteps_label hdata.core hname]
    have hbody := ((((ih.listed true).cons .newline).cons (.token ":")).cons (.token s)).cons
      .setBackLine
    exact (Holds.named hname []).pair hbody
  | exprStatement hdata _ ih =>
    refine .of_node hdata.core (by simp) ?_
    rw [bareSteps_expr hdata.core]
    exact (ih _).snoc _

/-- What is written of a script has its functions in it. -/
theorem IsScript.holds {d : Dialect} {t : Tree} (h : IsScript d t) (o : RenderOptions) :
    Holds o (scriptSteps o t) [t] := by
  obtain ⟨hdata, -, hall⟩ := h
  refine .node hdata.core (by simp) ?_
  rw [scriptSteps, partsOf_eq]
  exact (listed_eq (o := o) _ ▸ listed_holds fun t ht => (hall t ht).holds o).snoc _

/-- What is written of a function has itself and the functions in its body. -/
theorem Made.holds {d : Dialect} {t : Tree} {f : FunctionData} (h : Made d t)
    (hf : t.data.function? = some f) (o : RenderOptions) : Holds o (functionText o t) [t] := by
  have htag := h.marks.2.mpr (by rw [hf]; rfl)
  obtain ⟨role, id, data, body, rfl, hpayload, hfunction, hbody⟩ := h.function hf
  rw [functionText_eq hpayload]
  exact .function htag hpayload (hbody.holds o)

/-! ## The text of a function -/

namespace Writer
variable {w : Writer} {text : List Char}

/-- A compact writer that has put down a text and owes nothing. -/
structure Holding (w : Writer) (text : List Char) : Prop where
  compact : w.compact = true
  written : w.written = text.reverse
  owes : w.owesSemicolon = false
  regExp : w.afterRegExp = false
  number : w.afterOpenNumber = false
  last : w.lastChar = text.getLast?

/-- Characters that nothing is set off from. -/
def brackets : List Char := ['(', ')', ',', '\x7b', '\x7d']

theorem brackets_alone : ∀ c ∈ brackets, isWordChar c = false ∧
    ∀ before other, fuses before c other = false ∧ fuses before other c = false := by
  have hword : ∀ c ∈ brackets, isWordChar c = false := Literal.forall_chars (by decide)
  intro c hc
  refine ⟨hword c hc, fun before other => ?_⟩
  simp only [brackets, List.mem_cons, List.not_mem_nil, or_false] at hc
  rcases hc with rfl | rfl | rfl | rfl | rfl <;>
    exact ⟨by unfold fuses; split <;> simp_all, by unfold fuses; split <;> simp_all⟩

theorem needsSpace_bracket (w : Writer) {c : Char} (hc : c ∈ brackets) : w.needsSpace c = false := by
  obtain ⟨hword, hfuses⟩ := brackets_alone c hc
  unfold needsSpace
  split
  · rfl
  · simp [hword, hfuses]

/-- Nothing is set off from a bracket. -/
theorem Holding.behind_bracket (h : Holding w text) {last : Char} (hlast : text.getLast? = some last)
    (hl : last ∈ brackets) (c : Char) : w.needsSpace c = false := by
  obtain ⟨hword, hfuses⟩ := brackets_alone last hl
  rw [needsSpace, h.last, hlast]
  simp [hword, hfuses, h.regExp, h.number]

/-- A token behind a text, set off or not. -/
theorem Holding.token (h : Holding w text) {s : String} {first : Char}
    (hfirst : s.toList.head? = some first) : Holding (w.step (.token s))
      (text ++ (if w.needsSpace first then [' '] else []) ++ s.toList) := by
  have hsettle : w.settle s.toList = w := by
    rw [settle, h.owes]
    rfl
  have hne : s.toList ≠ [] := by
    rintro hnil
    rw [hnil] at hfirst
    cases hfirst
  have hkept := put_kept w ⟨.plain, s.toList⟩ first
  rw [step_written (t := ⟨.plain, s.toList⟩) rfl hfirst, hsettle]
  refine ⟨hkept.2.trans h.compact, ?_, hkept.1.trans h.owes, rfl, rfl, ?_⟩
  · rw [put_written h.compact, h.written]
    split <;> simp
  · rw [(marks_put _ first).lastChar, List.getLast?_append_of_ne_nil _ hne]

theorem Holding.bracket (h : Holding w text) {s : String} {c : Char} (hs : s.toList = [c])
    (hc : c ∈ brackets) : Holding (w.step (.token s)) (text ++ [c]) := by
  have hall := h.token (show s.toList.head? = some c by rw [hs]; rfl)
  rwa [needsSpace_bracket w hc, if_neg Bool.false_ne_true, List.append_nil, hs] at hall

theorem Holding.space (h : Holding w text) : Holding (w.step .space) text := by
  rwa [layout_compact h.compact (.inl rfl)]

/-- A word right behind the keyword is set off from it. -/
theorem Holding.word (h : Holding w text) {last : Char} (hlast : text.getLast? = some last)
    (hl : Text.isIdentPart last = true) {s : String} (hs : opensWord s.toList = true) :
    Holding (w.step (.token s)) (text ++ ' ' :: s.toList) := by
  obtain ⟨first, rest, hrest⟩ : ∃ first rest, s.toList = first :: rest := by
    cases hc : s.toList with
    | nil => simp [opensWord, hc] at hs
    | cons first rest => exact ⟨first, rest, rfl⟩
  have hfirst : s.toList.head? = some first := by rw [hrest]; rfl
  have hword : isWordChar first = true := by
    simp only [opensWord, hfirst, Option.any_some, Bool.or_eq_true] at hs
    rcases hs with hs | hs <;> simp [isWordChar, Text.isIdentPart, hs]
  have hblank : (last == ' ' || last == '\n') = false := by
    have hblanks : ∀ c ∈ [' ', '\n'], Text.isIdentPart c = false :=
      Literal.forall_chars (by decide)
    rw [Bool.or_eq_false_iff, beq_eq_false_iff_ne, beq_eq_false_iff_ne]
    constructor <;> rintro rfl
    · simp [hblanks ' ' (by simp)] at hl
    · simp [hblanks '\n' (by simp)] at hl
  have hspace : w.needsSpace first = true := by
    rw [needsSpace, h.last, hlast]
    simp [hblank, hword, show isWordChar last = true by simp [isWordChar, hl]]
  have hall := h.token hfirst
  rwa [hspace, if_pos rfl, List.append_assoc] at hall

/-- Names between brackets, with commas between them. -/
theorem Holding.names (h : Holding w text) {last : Char} (hlast : text.getLast? = some last)
    (hl : last ∈ brackets) {names : List String}
    (hnames : ∀ name ∈ names, opensWord name.toList = true) :
    Holding (w.run (Render.separated (names.map fun name => [.token name])))
      (text ++ [','].intercalate (names.map String.toList)) := by
  induction names generalizing w text last with
  | nil => simpa [Render.separated, run] using h
  | cons name names ih =>
    obtain ⟨hname, hrest⟩ := List.forall_mem_cons.mp hnames
    obtain ⟨first, hfirst⟩ : ∃ first, name.toList.head? = some first := by
      cases hc : name.toList with
      | nil => simp [opensWord, hc] at hname
      | cons first rest => exact ⟨first, rfl⟩
    have hput := h.token hfirst
    rw [h.behind_bracket hlast hl, if_neg Bool.false_ne_true, List.append_nil] at hput
    cases names with
    | nil => simpa [Render.separated, run] using hput
    | cons next names =>
      have hcomma := (hput.bracket (s := ",") (c := ',') rfl (by simp [brackets])).space
      have hall := ih hcomma List.getLast?_concat (by simp [brackets]) hrest
      have htext : [','].intercalate ((name :: next :: names).map String.toList)
          = name.toList ++ [','] ++ [','].intercalate ((next :: names).map String.toList) :=
        List.intercalate_cons_cons
      rw [htext, ← List.append_assoc, ← List.append_assoc]
      exact hall

end Writer

/-- The head of a function as it is written without white space. -/
def FunctionData.headText (f : FunctionData) : String :=
  "function" ++ f.name.elim "" (" " ++ ·) ++ "(" ++ ",".intercalate f.params ++ ")"

/-- The head of a function and the brace behind it, as they are written. -/
def FunctionData.headSteps (f : FunctionData) : List WriterStep :=
  .token "function" :: (f.name.elim .space .token) :: .token "("
    :: Render.separated (f.params.map fun p => [.token p]) ++ [.token ")", .space, .token "\x7b"]

namespace Writer
open Render

theorem holding_head {o : RenderOptions} {d : Dialect} {f : FunctionData} {role : FunctionRole}
    {body : Tree} (ho : o.compact = true) (hf : IsFunction d f role body) :
    Holding ((fresh o).run f.headSteps) (f.headText ++ "\x7b").toList := by
  have hfresh : Holding (fresh o) [] := ⟨ho, rfl, rfl, rfl, rfl, rfl⟩
  have hkeyword := hfresh.token (show "function".toList.head? = some 'f' from rfl)
  rw [show (fresh o).needsSpace 'f' = false from rfl, if_neg Bool.false_ne_true, List.nil_append,
    List.nil_append] at hkeyword
  have hname : Holding (((fresh o).step (.token "function")).step (f.name.elim .space .token))
      ("function".toList ++ (f.name.elim "" (" " ++ ·)).toList) := by
    cases hn : f.name with
    | none => simpa using hkeyword.space
    | some name =>
      have hlast : "function".toList.getLast? = some 'n' := rfl
      have hword := hkeyword.word hlast (by decide) (isName_opens (hf.name name hn)).2
      simpa using hword
  have hopen := hname.bracket (s := "(") (c := '(') rfl (by simp [brackets])
  have hparams := hopen.names List.getLast?_concat (by simp [brackets]) fun p hp =>
    (isName_opens (hf.params p hp)).2
  have hclose := (hparams.bracket (s := ")") (c := ')') rfl (by simp [brackets])).space
  have hbrace := hclose.bracket (s := "\x7b") (c := '\x7b') rfl (by simp [brackets])
  have htext : (f.headText ++ "\x7b").toList = "function".toList
      ++ (f.name.elim "" (" " ++ ·)).toList ++ ['(']
      ++ [','].intercalate (f.params.map String.toList) ++ [')'] ++ ['\x7b'] := by
    simp only [FunctionData.headText, String.toList_append, String.toList_intercalate]
    rfl
  rw [htext]
  simpa only [FunctionData.headSteps, run, List.foldl_cons, List.foldl_append, List.foldl_nil,
    List.cons_append] using hbrace

end Writer

namespace Writer
variable {w : Writer} {text : List Char} {o : RenderOptions}

/-- Behind a bracket a writer goes on as at its beginning. -/
theorem Holding.alike (h : Holding w text) (ho : o.compact = true) {last : Char}
    (hlast : text.getLast? = some last) (hl : last ∈ brackets) :
    Alike text.reverse (fresh o) w where
  compact := ho
  compact' := h.compact
  written := h.written
  owes := h.owes
  regExp := h.regExp
  number := h.number
  spaced c := h.behind_bracket hlast hl c
  dash := by
    rw [h.last, hlast]
    simp only [brackets, List.mem_cons, List.not_mem_nil, or_false] at hl
    rcases hl with rfl | rfl | rfl | rfl | rfl <;> rfl

/-- A closing brace takes the place of the semicolon that is owed. -/
theorem written_closeBrace (h : w.compact = true) :
    (w.run [.outdent, .newline, .token "\x7d"]).written = '\x7d' :: w.written := by
  have hnewline : w.outdent.step .newline = w.outdent :=
    layout_compact (w := w.outdent) h (.inr (.inl rfl))
  have hsettle : ∀ v : Writer, (v.settle ['\x7d']).written = v.written := fun v => by
    unfold settle
    split <;> rfl
  have hcompact : (w.outdent.settle ['\x7d']).compact = true := (settle_kept _ _).2.trans h
  change ((w.outdent.step .newline).step (.token "\x7d")).written = _
  rw [hnewline, step_written (t := ⟨.plain, ['\x7d']⟩) rfl rfl, put_written hcompact, hsettle,
    needsSpace_bracket _ (by simp [brackets])]
  rfl

end Writer

open Render Writer in
/-- The compact text of a function is its head around the compact text of its body. -/
theorem write_function {o : RenderOptions} (ho : o.compact = true) {d : Dialect} {f : FunctionData}
    {role : FunctionRole} {body : Tree} (hf : IsFunction d f role body)
    (hbody : Formed d (.block .body true) body) : write o (functionAt o f body)
      = f.headText ++ "\x7b" ++ write o (scriptSteps o body) ++ "\x7d" := by
  have hhead := holding_head ho hf
  cases hbody with
  | @block _ _ id data parts hdata hleading hall =>
    have hspeaks : ∀ s ∈ scriptSteps o (.node id data parts), s.Speaks :=
      (statements_flow hdata.trailing hall o).speaks
    have hsteps : functionAt o f (.node id data parts) = f.headSteps
        ++ .indent :: (scriptSteps o (.node id data parts)
          ++ [.outdent, .newline, .token "\x7d"]) := by
      rw [functionAt, statementAt_block, blockSteps, blockRest, scriptSteps, partsOf_eq]
      simp [FunctionData.headSteps, Tree.children, Tree.data]
    generalize hw : (fresh o).run f.headSteps = w at hhead
    have hlast : (f.headText ++ "\x7b").toList.getLast? = some '\x7b' := by
      rw [String.toList_append]
      exact List.getLast?_concat
    have halike := hhead.alike ho hlast (by simp [brackets])
    have hinner : Alike _ (fresh o) w.indent :=
      halike.same ⟨rfl, rfl, rfl, rfl, rfl, rfl, rfl⟩ ⟨rfl, rfl, rfl, rfl, rfl, rfl, rfl⟩
    have hrun := hinner.run hspeaks
    rw [← String.toList_inj, toList_write ho, hsteps, run_append, hw]
    change ((w.indent.run _).written).reverse = _
    rw [run_append, written_closeBrace hrun.compact', hrun.written]
    simp [toList_write ho]

/-! ## Scripts -/

/-- The compact text of a function in a list: its head around the compact text of its body, and a
part of the compact text of the script and of every function around it. -/
structure FunctionIndex.InPlace (index : FunctionIndex) : Prop where
  composed : ∀ i e, index.entries[i]? = some e → ∃ body,
    index.renderBody .compactForm i = .ok body ∧ index.renderFunction .compactForm i
      = .ok (e.data.headText ++ "\x7b" ++ body ++ "\x7d")
  ofScript : ∀ i text, index.renderFunction .compactForm i = .ok text →
    text.toList <:+: (Render.script .compactForm index.root).toList
  ofFunction : ∀ i j e e', index.entries[i]? = some e → index.entries[j]? = some e' →
    e.tree ∈ e'.tree.preorder → ∀ text text', index.renderFunction .compactForm i = .ok text →
    index.renderFunction .compactForm j = .ok text' → text.toList <:+: text'.toList

theorem FunctionIndex.renderFunction_eq {index : FunctionIndex} {i : Nat} {e : FunctionEntry}
    (h : index.entries[i]? = some e) (o : RenderOptions) :
    index.renderFunction o i = .ok (write o (functionText o e.tree)) := by
  rw [renderFunction, lookup, h]
  rfl

theorem FunctionIndex.renderBody_eq {index : FunctionIndex} {i : Nat} {e : FunctionEntry}
    (h : index.entries[i]? = some e) (o : RenderOptions) :
    index.renderBody o i = .ok (write o (e.bodySteps o)) := by
  rw [renderBody, lookup, h]
  rfl

/-- A function with a place in the index of a script. -/
theorem IsScript.entry {d : Dialect} {t : Tree} (h : IsScript d t) {i : Nat} {e : FunctionEntry}
    (he : (FunctionIndex.ofTree t).entries[i]? = some e) :
    e.tree ∈ functionsIn [t] ∧ Made d e.tree ∧ e.tree.data.function? = some e.data := by
  obtain ⟨hnode, hf⟩ := FunctionIndex.mem_collectFrom (List.mem_of_getElem? he)
  rw [Tree.preorder_eq, List.mem_cons] at hnode
  rcases hnode with hroot | hnode
  · obtain ⟨hdata, -, -⟩ := h
    rw [hroot] at hf
    cases Node.function?_of_core hdata.core hf
  · have hmade := h.inside hnode
    have hroot : t.tag ≠ .kwFunction := by simp [h.root]
    refine ⟨?_, hmade, hf⟩
    rw [functionsIn_other hroot, functionsIn, List.mem_filter]
    exact ⟨hnode, by simpa using hmade.marks.2.mpr (by rw [hf]; rfl)⟩

/-- The compact text of a function is part of that of instructions that have it in them. -/
theorem Made.write_infix {d : Dialect} {t : Tree} {f : FunctionData} (h : Made d t)
    (hf : t.data.function? = some f) {o : RenderOptions} (ho : o.compact = true)
    {steps : List WriterStep} (hs : ∀ s ∈ steps, s.Speaks) (hin : functionText o t <:+: steps) :
    (write o (functionText o t)).toList <:+: (write o steps).toList := by
  obtain ⟨role, id, data, body, rfl, hpayload, -, -⟩ := h.function hf
  rw [functionText_eq hpayload] at hin ⊢
  have hsub := hin.subset
  refine Writer.write_infix ho (by decide) (fun s hmem => hs s (hsub ?_)) hin
  exact List.mem_cons_of_mem _ hmem

/-- The functions of a script are written alone as they are in place. -/
theorem IsScript.inPlace {d : Dialect} {t : Tree} (h : IsScript d t) :
    (FunctionIndex.ofTree t).InPlace := by
  have hspeaks := (h.flows .compactForm).speaks
  refine ⟨fun i e he => ?_, fun i text htext => ?_, fun i j e e' he he' hin text text' ht ht' => ?_⟩
  · obtain ⟨-, hmade, hf⟩ := h.entry he
    refine ⟨_, FunctionIndex.renderBody_eq he _, ?_⟩
    obtain ⟨role, id, data, body, htree, hpayload, hfunction, hbody⟩ := hmade.function hf
    rw [FunctionIndex.renderFunction_eq he, FunctionEntry.bodySteps, htree,
      functionText_eq hpayload, write_function rfl hfunction hbody]
    rfl
  · cases he : (FunctionIndex.ofTree t).entries[i]? with
    | none =>
      rw [FunctionIndex.renderFunction, FunctionIndex.lookup, he] at htext
      cases htext
    | some e =>
      obtain ⟨hmem, hmade, hf⟩ := h.entry he
      rw [FunctionIndex.renderFunction_eq he] at htext
      obtain rfl := Except.ok.inj htext
      exact hmade.write_infix hf rfl hspeaks (h.holds _ e.tree hmem)
  · obtain ⟨hmem, hmade, hf⟩ := h.entry he
    obtain ⟨hmem', hmade', hf'⟩ := h.entry he'
    rw [FunctionIndex.renderFunction_eq he] at ht
    rw [FunctionIndex.renderFunction_eq he'] at ht'
    obtain rfl := Except.ok.inj ht
    obtain rfl := Except.ok.inj ht'
    have houter := h.holds .compactForm e'.tree hmem'
    have hinner : e.tree ∈ functionsIn [e'.tree] := by
      rw [functionsIn, List.mem_filter] at hmem ⊢
      exact ⟨by simpa [preorderAll] using hin, hmem.2⟩
    refine hmade.write_infix hf rfl (fun s hs => hspeaks s (houter.subset hs)) ?_
    exact hmade'.holds hf' .compactForm e.tree hinner

namespace Script

/-- The compact text of a function of a script that was read is the same alone and in place. -/
theorem read_inPlace {settings : ReadSettings} {text : String} {script : Script}
    (h : read settings text = .ok script) : (FunctionIndex.ofTree script.tree).InPlace :=
  (Grammar.read_sound h).1.inPlace

/-- A function in the body of another one, in a statement whose semicolon is left out. -/
theorem read_inPlace_nested : ∃ script,
    read {} "a=function f(b,c)\x7breturn d=function()\x7b\x7d;\x7d" = .ok script
      ∧ (FunctionIndex.ofTree script.tree).InPlace
      ∧ (List.range 2).map ((FunctionIndex.ofTree script.tree).renderFunction .compactForm)
        = [.ok "function f(b,c)\x7breturn d=function()\x7b\x7d\x7d", .ok "function()\x7b\x7d"] := by
  have hread : ((read {} "a=function f(b,c)\x7breturn d=function()\x7b\x7d;\x7d").toOption.map
      fun script =>
        (List.range 2).map ((FunctionIndex.ofTree script.tree).renderFunction .compactForm))
      = some [.ok "function f(b,c)\x7breturn d=function()\x7b\x7d\x7d",
          .ok "function()\x7b\x7d"] := by
    decide +kernel
  cases h : read {} "a=function f(b,c)\x7breturn d=function()\x7b\x7d;\x7d" with
  | error problem =>
    rw [h] at hread
    cases hread
  | ok script =>
    rw [h] at hread
    exact ⟨script, rfl, read_inPlace h, Option.some.inj hread⟩

end Script
end ScriptPress
