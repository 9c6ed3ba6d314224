import ScriptPress.Proofs.Shape.Outline
import ScriptPress.Grammar.Script

/-! # Well-formed trees

The trees that the grammar can read, by what they stand for: an expression, an element of an
array, a declared variable, a part or the start of a loop header, a statement, a block, a clause of
a switch or a handler of a try. A context holds what jumps can go to.
-/
namespace ScriptPress

/-! ## Contexts -/

/-- How a label stands: right in front of the statement, in front of a loop around it, or in front
of another statement around it. -/
inductive LabelRole where
  | front | loop | other
  deriving Repr, DecidableEq

structure Ctx where
  inFunction : Bool := false
  hasTarget : Bool := false
  hasLoop : Bool := false
  labels : List (String × LabelRole) := []
  deriving Repr, DecidableEq

namespace LabelRole

def settled : LabelRole → LabelRole
  | front => other
  | role => role

def inLoop : LabelRole → LabelRole
  | front => loop
  | role => role

end LabelRole

namespace Ctx

def role? (c : Ctx) (name : String) : Option LabelRole :=
  (c.labels.find? (·.1 == name)).map (·.2)

/-- Inside a statement that is no loop. -/
def settled (c : Ctx) : Ctx := { c with labels := c.labels.map fun l => (l.1, l.2.settled) }

def inLoop (c : Ctx) : Ctx :=
  { c with hasTarget := true, hasLoop := true, labels := c.labels.map fun l => (l.1, l.2.inLoop) }

def inSwitch (c : Ctx) : Ctx := { c.settled with hasTarget := true }

def labelled (c : Ctx) (name : String) : Ctx := { c with labels := (name, .front) :: c.labels }

/-- Inside the body of a function. -/
def body : Ctx := { inFunction := true }

/-- Whether a break or continue has somewhere to go. -/
def reaches (c : Ctx) (tag : Tag) : Option String → Bool
  | none => if tag == .kwBreak then c.hasTarget else c.hasLoop
  | some name =>
    match c.role? name with
    | none => false
    | some role => tag == .kwBreak || role == .loop

end Ctx

/-! ## Parts -/

namespace Lexer

def IsName (d : Dialect) (name : String) : Prop :=
  IsLexeme d name.toList ⟨.identifier, none, some name⟩

def IsReserved (d : Dialect) (name : String) : Prop :=
  IsLexeme d name.toList ⟨.reserved, none, some name⟩

/-- A sign or keyword of the dialect. -/
def IsSign (d : Dialect) (tag : Tag) (datum : Option Tag) : Prop :=
  IsLexeme d (Sym.mk tag datum none).spelling.toList ⟨tag, datum, none⟩

end Lexer

/-- The sort of a tree within its parent. -/
inductive Form where
  | expr | element | declared | part | start
  | statement (ctx : Ctx) (top : Bool)
  | block (ctx : Ctx) (top : Bool)
  | clause (ctx : Ctx)
  | handler (ctx : Ctx) (tag : Tag)

namespace Node

/-- A node without comments. -/
structure Plain (n : Node) (core : Core) : Prop where
  core : n.core = core
  leading : n.leading = []
  trailing : n.trailing = []

/-- A node with comments in front of it. -/
structure Remarked (n : Node) (core : Core) : Prop where
  core : n.core = core
  leading : ∀ c ∈ n.leading, Gap.IsComment c.toList
  trailing : n.trailing = []

/-- A node with comments at its end, and perhaps in front of it. -/
structure Closed (n : Node) (core : Core) : Prop where
  core : n.core = core
  leading : ∀ c ∈ n.leading, Gap.IsComment c.toList
  trailing : ∀ c ∈ n.trailing, Gap.IsComment c.toList

end Node

section
variable (d : Dialect)
open Lexer

/-- The literals and names, with what they are read from. -/
inductive IsLeaf : Core → Prop
  | name {s} : IsName d s → IsLeaf { tag := .identifier, payload := .text s }
  | number {s} : IsLexeme d s.toList ⟨.number, none, some s⟩ →
      IsLeaf { tag := .number, payload := .number s }
  | string {s} : IsLexeme d s.toList ⟨.string, none, some s⟩ →
      IsLeaf { tag := .string, payload := .text s }
  | regExp {s} : IsPattern d s.toList → IsLeaf { tag := .regExp, payload := .text s }
  | primary {value} : IsSign d .primary (some value) →
      IsLeaf { tag := .primary, datum := some value }

/-- The keys of objects. -/
inductive IsKey : Tree → Prop
  | name {id data s} : Node.Plain data { tag := .identifier, payload := .text s } →
      IsName d s ∨ IsReserved d s → IsKey (.node id data [])
  | string {id data s} : Node.Plain data { tag := .string, payload := .text s } →
      IsLexeme d s.toList ⟨.string, none, some s⟩ → IsKey (.node id data [])
  | number {id data s} : Node.Plain data { tag := .number, payload := .number s } →
      IsLexeme d s.toList ⟨.number, none, some s⟩ → IsKey (.node id data [])

/-- A name behind a point, a key word or a jump. -/
inductive IsNamed (ok : String → Prop) (name : String) : Tree → Prop
  | mk {id data} : Node.Plain data { tag := .identifier, payload := .text name } → ok name →
      IsNamed ok name (.node id data [])

/-- What a function says about itself and its body. -/
structure IsFunction (f : FunctionData) (role : FunctionRole) (body : Tree) : Prop where
  hasRole : f.role = role
  name : ∀ name ∈ f.name, IsName d name
  named : role = .expression ∨ f.name ≠ none
  params : ∀ name ∈ f.params, IsName d name
  activation : f.requiresActivation = (body.outline.needs false).activation
  this : f.checksThis = (body.outline.needs false).this

end

/-- The symbol as a token. -/
def Sym.token (s : Sym) : Token :=
  { tag := s.tag, datum := s.datum, text := s.text, line := 0, start := 0, stop := 0,
    newlineBefore := false }

/-- The operator of a unary node, with its sign. -/
def IsUnary (d : Dialect) (operator : Tag) : Prop :=
  ∃ tag datum, Lexer.IsSign d tag datum
    ∧ Grammar.unaryOperator? (Sym.mk tag datum none).token = some operator

/-- The tags of a binary node, with their sign. -/
def IsBinary (d : Dialect) (tag : Tag) (datum : Option Tag) : Prop :=
  ∃ sign mark, Lexer.IsSign d sign mark
    ∧ Grammar.binaryOperator? false (Sym.mk sign mark none).token = some (tag, datum)

namespace Tree

mutual

/-- Whether an `else` behind a statement would belong to an `if` in it. -/
def endsOpen : Tree → Bool
  | node _ data children =>
    match data.tag with
    | .kwIf => children.length == 2 || lastEndsOpen children
    | .kwWhile | .kwWith | .kwFor | .forIn | .label => lastEndsOpen children
    | _ => false

def lastEndsOpen : List Tree → Bool
  | [] => false
  | [t] => endsOpen t
  | _ :: rest => lastEndsOpen rest

end

/-- The keys and values of an object, from its pairs. -/
def flatPairs (pairs : List (Tree × Tree)) : List Tree := pairs.flatMap fun p => [p.1, p.2]

end Tree

open Lexer Tree in
/-- The trees that the grammar can read in a dialect. -/
inductive Formed (d : Dialect) : Form → Tree → Prop
  | leaf {id data core} : data.Plain core → IsLeaf d core → Formed d .expr (.node id data [])
  | array {id data parts} : data.Plain { tag := .arrayLit } →
      (∀ t ∈ parts, Formed d .element t) → Formed d .expr (.node id data parts)
  | object {id data pairs} : data.Plain { tag := .objectLit } →
      (∀ p ∈ pairs, IsKey d p.1) → (∀ p ∈ pairs, Formed d .expr p.2) →
      Formed d .expr (.node id data (flatPairs pairs))
  | function {id data f body} : data.Plain { tag := .kwFunction, payload := .function f } →
      IsFunction d f .expression body → Formed d (.block .body true) body →
      Formed d .expr (.node id data [body])
  | unary {id data operator operand} : data.Plain { tag := .unary, datum := some operator } →
      IsUnary d operator → Formed d .expr operand → Formed d .expr (.node id data [operand])
  | step {id data tag after operand} : data.Plain { tag := tag, postfixForm := after } →
      tag = .increment ∨ tag = .decrement → operand.tag.isAssignable = true →
      Formed d .expr operand → Formed d .expr (.node id data [operand])
  | assign {id data operator target value} : data.Plain { tag := .assign, datum := operator } →
      IsSign d .assign operator → target.tag.isAssignable = true →
      Formed d .expr target → Formed d .expr value → Formed d .expr (.node id data [target, value])
  | conditional {id data test yes no} : data.Plain { tag := .question } →
      Formed d .expr test → Formed d .expr yes → Formed d .expr no →
      Formed d .expr (.node id data [test, yes, no])
  | binary {id data tag datum left right} : data.Plain { tag := tag, datum := datum } →
      IsBinary d tag datum → Formed d .expr left → Formed d .expr right →
      Formed d .expr (.node id data [left, right])
  | comma {id data left right} : data.Plain { tag := .comma } → Formed d .expr left →
      Formed d .expr right → Formed d .expr (.node id data [left, right])
  | call {id data callee args} : data.Plain { tag := .call } → Formed d .expr callee →
      (∀ t ∈ args, Formed d .expr t) → Formed d .expr (.node id data (callee :: args))
  | construct {id data callee args} : data.Plain { tag := .kwNew } → Formed d .expr callee →
      (∀ t ∈ args, Formed d .expr t) → Formed d .expr (.node id data (callee :: args))
  | property {id data object s name} : data.Plain { tag := .getProp } → Formed d .expr object →
      IsNamed (fun s => IsName d s ∨ IsReserved d s) s name →
      Formed d .expr (.node id data [object, name])
  | index {id data object index} : data.Plain { tag := .getElem } → Formed d .expr object →
      Formed d .expr index → Formed d .expr (.node id data [object, index])
  | hole {id data} : data.Plain { tag := .empty } → Formed d .element (.node id data [])
  | element {t} : Formed d .expr t → Formed d .element t
  | declared {id data s} : data.Plain { tag := .identifier, payload := .text s } → IsName d s →
      Formed d .declared (.node id data [])
  | initialised {id data s value} : data.Plain { tag := .identifier, payload := .text s } →
      IsName d s → Formed d .expr value → Formed d .declared (.node id data [value])
  | noPart {id data} : data.Plain { tag := .empty } → Formed d .part (.node id data [])
  | part {t} : Formed d .expr t → Formed d .part t
  | noStart {id data} : data.Plain { tag := .empty } → Formed d .start (.node id data [])
  | exprStart {t} : Formed d .expr t → Formed d .start t
  | varStart {id data names} : data.Plain { tag := .kwVar } → names ≠ [] →
      (∀ t ∈ names, Formed d .declared t) → Formed d .start (.node id data names)
  | block {ctx top id data parts} : data.Closed { tag := .block } → data.leading = [] →
      (∀ t ∈ parts, Formed d (.statement ctx top) t) → Formed d (.block ctx top) (.node id data parts)
  | functionStatement {ctx top id data f body} :
      data.Remarked { tag := .kwFunction, payload := .function f } →
      IsFunction d f (Grammar.functionRole top) body → Formed d (.block .body true) body →
      Formed d (.statement ctx top) (.node id data [body])
  | blockStatement {ctx top id data parts} : data.Closed { tag := .block } →
      (∀ t ∈ parts, Formed d (.statement ctx.settled false) t) →
      Formed d (.statement ctx top) (.node id data parts)
  | var {ctx top id data names} : data.Remarked { tag := .kwVar } → names ≠ [] →
      (∀ t ∈ names, Formed d .declared t) → Formed d (.statement ctx top) (.node id data names)
  | empty {ctx top id data} : data.Remarked { tag := .empty } →
      Formed d (.statement ctx top) (.node id data [])
  | ifThen {ctx top id data test yes} : data.Remarked { tag := .kwIf } → Formed d .expr test →
      Formed d (.statement ctx.settled false) yes →
      Formed d (.statement ctx top) (.node id data [test, yes])
  | ifElse {ctx top id data test yes no} : data.Remarked { tag := .kwIf } → Formed d .expr test →
      Formed d (.statement ctx.settled false) yes → yes.endsOpen = false →
      Formed d (.statement ctx.settled false) no →
      Formed d (.statement ctx top) (.node id data [test, yes, no])
  | while {ctx top id data test body} : data.Remarked { tag := .kwWhile } → Formed d .expr test →
      Formed d (.statement ctx.inLoop false) body →
      Formed d (.statement ctx top) (.node id data [test, body])
  | doWhile {ctx top id data body test} : data.Remarked { tag := .kwDo } → IsSign d .kwDo none →
      Formed d (.statement ctx.inLoop false) body → Formed d .expr test →
      Formed d (.statement ctx top) (.node id data [body, test])
  | for {ctx top id data start test update body} : data.Remarked { tag := .kwFor } →
      Formed d .start start → Formed d .part test → Formed d .part update →
      Formed d (.statement ctx.inLoop false) body →
      Formed d (.statement ctx top) (.node id data [start, test, update, body])
  | forIn {ctx top id data start object body} : data.Remarked { tag := .forIn } →
      Formed d .start start → Grammar.isForInTarget start = true → Formed d .expr object →
      Formed d (.statement ctx.inLoop false) body →
      Formed d (.statement ctx top) (.node id data [start, object, body])
  | jump {ctx top id data tag} : data.Remarked { tag := tag } →
      tag = .kwBreak ∨ tag = .kwContinue → ctx.reaches tag none = true →
      Formed d (.statement ctx top) (.node id data [])
  | jumpTo {ctx top id data tag s name} : data.Remarked { tag := tag } →
      tag = .kwBreak ∨ tag = .kwContinue → ctx.reaches tag (some s) = true →
      IsNamed (IsName d) s name → Formed d (.statement ctx top) (.node id data [name])
  | return {ctx top id data} : data.Remarked { tag := .kwReturn } → ctx.inFunction = true →
      Formed d (.statement ctx top) (.node id data [])
  | returnValue {ctx top id data value} : data.Remarked { tag := .kwReturn } →
      ctx.inFunction = true → Formed d .expr value →
      Formed d (.statement ctx top) (.node id data [value])
  | with {ctx top id data object body} : data.Remarked { tag := .kwWith } →
      Formed d .expr object → Formed d (.statement ctx.settled false) body →
      Formed d (.statement ctx top) (.node id data [object, body])
  | switch {ctx top id data value clauses} : data.Closed { tag := .kwSwitch } →
      IsSign d .kwSwitch none → Formed d .expr value →
      (∀ t ∈ clauses, Formed d (.clause ctx.inSwitch) t) →
      (clauses.filter (·.tag == .kwDefault)).length ≤ 1 →
      Formed d (.statement ctx top) (.node id data (value :: clauses))
  | case {ctx id data test parts} : data.Remarked { tag := .kwCase } → IsSign d .kwCase none →
      Formed d .expr test → (∀ t ∈ parts, Formed d (.statement ctx false) t) →
      Formed d (.clause ctx) (.node id data (test :: parts))
  | default {ctx id data parts} : data.Remarked { tag := .kwDefault } →
      IsSign d .kwDefault none → (∀ t ∈ parts, Formed d (.statement ctx false) t) →
      Formed d (.clause ctx) (.node id data parts)
  | throw {ctx top id data value} : data.Remarked { tag := .kwThrow } → IsSign d .kwThrow none →
      Formed d .expr value → Formed d (.statement ctx top) (.node id data [value])
  | try {ctx top id data body catches finals} : data.Remarked { tag := .kwTry } →
      IsSign d .kwTry none → Formed d (.block ctx.settled false) body →
      (∀ t ∈ catches, Formed d (.handler ctx.settled .kwCatch) t) →
      (∀ t ∈ finals, Formed d (.handler ctx.settled .kwFinally) t) →
      finals.length ≤ 1 → catches ++ finals ≠ [] →
      Formed d (.statement ctx top) (.node id data (body :: (catches ++ finals)))
  | catch {ctx id data s name body} : data.Plain { tag := .kwCatch } → IsSign d .kwCatch none →
      IsNamed (IsName d) s name → Formed d (.block ctx false) body →
      Formed d (.handler ctx .kwCatch) (.node id data [name, body])
  | guarded {ctx id data s name guard body} : data.Plain { tag := .kwCatch } →
      IsSign d .kwCatch none → d.hasCatchGuards = true → IsNamed (IsName d) s name →
      Formed d .expr guard → Formed d (.block ctx false) body →
      Formed d (.handler ctx .kwCatch) (.node id data [name, guard, body])
  | finally {ctx id data body} : data.Plain { tag := .kwFinally } → IsSign d .kwFinally none →
      Formed d (.block ctx false) body → Formed d (.handler ctx .kwFinally) (.node id data [body])
  | label {ctx top id data s name body} : data.Remarked { tag := .label } →
      IsNamed (IsName d) s name → ctx.role? s = none →
      Formed d (.statement (ctx.labelled s) false) body →
      Formed d (.statement ctx top) (.node id data [name, body])
  | exprStatement {ctx top id data value} : data.Remarked { tag := .exprStatement } →
      Formed d .expr value → Formed d (.statement ctx top) (.node id data [value])

/-- The trees of scripts. -/
inductive IsScript (d : Dialect) : Tree → Prop
  | mk {id data parts} : data.Closed { tag := .script } → data.leading = [] →
      (∀ t ∈ parts, Formed d (.statement {} true) t) → IsScript d (.node id data parts)

/-! ## What functions tell -/

theorem flagged_node {id : NodeId} {data : Node} {core : Core} {children : List Tree}
    (h : data.core = core) (hf : ∀ f, core.payload ≠ .function f)
    (hall : ∀ t ∈ children, t.outline.Flagged) : (Tree.node id data children).outline.Flagged := by
  rw [Tree.outline_node, h]
  refine .node (fun f hpayload => absurd hpayload (hf f)) fun x hx => ?_
  obtain ⟨t, ht, rfl⟩ := List.mem_map.mp hx
  exact hall t ht

theorem flagged_function {d : Dialect} {id : NodeId} {data : Node} {f : FunctionData}
    {role : FunctionRole} {body : Tree}
    (h : data.core = { tag := .kwFunction, payload := .function f })
    (hf : IsFunction d f role body) (hbody : body.outline.Flagged) :
    (Tree.node id data [body]).outline.Flagged := by
  rw [Tree.outline_node, h]
  refine .node ?_ (by simpa using hbody)
  rintro g ⟨rfl⟩
  simp only [List.map_cons, List.map_nil, Outline.partsNeeds, Needs.append_empty]
  exact ⟨hf.activation, hf.this⟩

theorem IsKey.flagged {d : Dialect} {t : Tree} (h : IsKey d t) : t.outline.Flagged := by
  cases h with
  | name hdata | string hdata | number hdata =>
    exact flagged_node hdata.core (fun f h => nomatch h) (by simp)

theorem IsNamed.flagged {ok : String → Prop} {name : String} {t : Tree} (h : IsNamed ok name t) :
    t.outline.Flagged := by
  obtain ⟨hdata, -⟩ := h
  exact flagged_node hdata.core (fun f h => nomatch h) (by simp)

/-- Every function in a well-formed tree tells what its body needs. -/
theorem Formed.flagged {d : Dialect} {form : Form} {t : Tree} (h : Formed d form t) :
    t.outline.Flagged := by
  induction h with
  | leaf hdata hleaf =>
    refine flagged_node hdata.core (fun f => ?_) (by simp)
    cases hleaf <;> exact fun h => nomatch h
  | object hdata hkeys _ ih =>
    refine flagged_node hdata.core (fun f h => nomatch h) fun t ht => ?_
    obtain ⟨p, hp, ht⟩ := List.mem_flatMap.mp ht
    rcases (by simpa using ht : t = p.1 ∨ t = p.2) with rfl | rfl
    · exact (hkeys p hp).flagged
    · exact ih p hp
  | function hdata hf _ ih => exact flagged_function hdata.core hf ih
  | functionStatement hdata hf _ ih => exact flagged_function hdata.core hf ih
  | element _ ih | part _ ih | exprStart _ ih => exact ih
  | array hdata _ ih | varStart hdata _ _ ih | block hdata _ _ ih | blockStatement hdata _ ih
  | var hdata _ _ ih | default hdata _ _ ih =>
    exact flagged_node hdata.core (fun f h => nomatch h) ih
  | hole hdata | declared hdata | noPart hdata | noStart hdata | empty hdata | jump hdata
  | «return» hdata =>
    exact flagged_node hdata.core (fun f h => nomatch h) (by simp)
  | unary hdata _ _ ih | step hdata _ _ _ ih | initialised hdata _ _ ih | returnValue hdata _ _ ih
  | throw hdata _ _ ih | exprStatement hdata _ ih | «finally» hdata _ _ ih =>
    exact flagged_node hdata.core (fun f h => nomatch h) (by simpa using ih)
  | assign hdata _ _ _ _ ih ih' | binary hdata _ _ _ ih ih' | comma hdata _ _ ih ih'
  | index hdata _ _ ih ih' | ifThen hdata _ _ ih ih' | «while» hdata _ _ ih ih'
  | doWhile hdata _ _ _ ih ih' | «with» hdata _ _ ih ih' =>
    exact flagged_node hdata.core (fun f h => nomatch h) (by simpa using ⟨ih, ih'⟩)
  | conditional hdata _ _ _ ih ih' ih'' | ifElse hdata _ _ _ _ ih ih' ih''
  | forIn hdata _ _ _ _ ih ih' ih'' =>
    exact flagged_node hdata.core (fun f h => nomatch h) (by simpa using ⟨ih, ih', ih''⟩)
  | «for» hdata _ _ _ _ ih ih' ih'' ih₃ =>
    exact flagged_node hdata.core (fun f h => nomatch h) (by simpa using ⟨ih, ih', ih'', ih₃⟩)
  | call hdata _ _ ih ih' | construct hdata _ _ ih ih' =>
    exact flagged_node hdata.core (fun f h => nomatch h) (by simpa using ⟨ih, ih'⟩)
  | switch hdata _ _ _ _ ih ih' =>
    exact flagged_node hdata.core (fun f h => nomatch h) (by simpa using ⟨ih, ih'⟩)
  | case hdata _ _ _ ih ih' =>
    exact flagged_node hdata.core (fun f h => nomatch h) (by simpa using ⟨ih, ih'⟩)
  | property hdata _ hname ih =>
    exact flagged_node hdata.core (fun f h => nomatch h) (by simpa using ⟨ih, hname.flagged⟩)
  | jumpTo hdata _ _ hname =>
    exact flagged_node hdata.core (fun f h => nomatch h) (by simpa using hname.flagged)
  | «catch» hdata _ hname _ ih =>
    exact flagged_node hdata.core (fun f h => nomatch h) (by simpa using ⟨hname.flagged, ih⟩)
  | guarded hdata _ _ hname _ _ ih ih' =>
    exact flagged_node hdata.core (fun f h => nomatch h) (by simpa using ⟨hname.flagged, ih, ih'⟩)
  | label hdata hname _ _ ih =>
    exact flagged_node hdata.core (fun f h => nomatch h) (by simpa using ⟨hname.flagged, ih⟩)
  | «try» hdata _ _ _ _ _ _ ih ih' ih'' =>
    refine flagged_node hdata.core (fun f h => nomatch h) fun t ht => ?_
    rcases List.mem_cons.mp ht with rfl | ht
    · exact ih
    · exact (List.mem_append.mp ht).elim (ih' t) (ih'' t)

theorem IsScript.flagged {d : Dialect} {t : Tree} (h : IsScript d t) : t.outline.Flagged := by
  obtain ⟨hdata, -, hall⟩ := h
  exact flagged_node hdata.core (fun f h => nomatch h) fun t ht => (hall t ht).flagged

end ScriptPress
