import ScriptPress.Proofs.Shape.Formed
import ScriptPress.Render.Statement

/-! # What is written of each node

The instructions for a tree depend on its nodes through their cores and their comments. For each
sort of node, what is written of it at a place is put together from what is written of its parts.
-/
namespace ScriptPress.Render
variable {o : RenderOptions} {t : Tree} {place : Place} {id : NodeId} {data : Node}

/-! ## Parts -/

theorem partsOf_eq (o : RenderOptions) (ts : List Tree) : partsOf o ts = ts.map (part o) := by
  induction ts with
  | nil => rw [partsOf, List.map_nil]
  | cons t ts ih => rw [partsOf, List.map_cons, ih]

/-- What is written of an expression at its place. -/
def exprAt (o : RenderOptions) (t : Tree) (place : Place) : List WriterStep := (part o t).expr place

/-- What is written of a statement in its role. -/
def statementAt (o : RenderOptions) (t : Tree) (role : Role) : List WriterStep :=
  (part o t).statement role

/-- What is written of an expression without parentheses around it. -/
def bareAt (o : RenderOptions) (t : Tree) (place : Place) : List WriterStep :=
  bareExpr o t.data (t.children.map (part o)) place

/-- What is written of a statement without the comments before it. -/
def bareSteps (o : RenderOptions) (t : Tree) : List WriterStep :=
  bareStatement o t (t.children.map (part o))

@[simp] theorem part_expr (t : Tree) (place : Place) : (part o t).expr place = exprAt o t place :=
  rfl

@[simp] theorem part_statement (t : Tree) (role : Role) :
    (part o t).statement role = statementAt o t role := rfl

@[simp] theorem part_tree (t : Tree) : (part o t).tree = t := by
  cases t
  rfl

@[simp] theorem part_data (t : Tree) : (part o t).data = t.data := by rw [Part.data, part_tree]

@[simp] theorem part_tag (t : Tree) : (part o t).tag = t.tag := by rw [Part.tag, part_data]; rfl

@[simp] theorem part_operand (t : Tree) (level : Nat) (noIn : Bool) :
    (part o t).operand level noIn = exprAt o t { use := .operand level, noIn } := rfl

@[simp] theorem part_enclosed (t : Tree) (level : Nat) :
    (part o t).enclosed level = exprAt o t { use := .operand level } := rfl

/-- The place within parentheses. -/
def Place.inner (place : Place) : Place :=
  { place with noIn := false, use := .operand Precedence.comma }

theorem exprAt_eq (t : Tree) (place : Place) : exprAt o t place =
    if needsParens t place then .token "(" :: bareAt o t place.inner ++ [.token ")"]
    else bareAt o t place := by
  cases t with
  | node id data children =>
    rw [exprAt, part, partsOf_eq]
    rfl

theorem statementAt_eq (t : Tree) (role : Role) :
    statementAt o t role = statementSteps o t (t.children.map (part o)) role := by
  cases t with
  | node id data children =>
    rw [statementAt, part, partsOf_eq]
    rfl

example : statementAt .compactForm (.node ⟨1⟩ { tag := .exprStatement, line := 1 }
    [.node ⟨0⟩ { tag := .primary, datum := some .thisValue, line := 1 } []]) .body
      = [.indent, .newline, .token "this", .semicolon, .outdent] := by cbv

theorem part_text {name : String} {core : Core} {children : List Tree} (h : data.core = core)
    (hp : core.payload.text? = some name) : (part o (.node id data children)).text = name := by
  have hpayload : data.payload = core.payload := congrArg Core.payload h
  rw [Part.text, part_data, Tree.data, Node.data?, hpayload]
  cases hc : core.payload <;> simp_all [Payload.text?]

/-! ## Leaves -/

section
variable {s : String}

theorem bareAt_identifier (h : data.core = { tag := .identifier, payload := .text s }) :
    bareAt o (.node id data []) place = [.token s] := by
  have htag : data.tag = .identifier := congrArg Core.tag h
  have hpayload : data.payload = .text s := congrArg Core.payload h
  simp [bareAt, bareExpr, Tree.data, htag, Node.data?, hpayload]

theorem bareAt_number (h : data.core = { tag := .number, payload := .number s }) :
    bareAt o (.node id data []) place = [.number s] := by
  have htag : data.tag = .number := congrArg Core.tag h
  have hpayload : data.payload = .number s := congrArg Core.payload h
  simp [bareAt, bareExpr, Tree.data, htag, Node.data?, hpayload]

theorem bareAt_string (h : data.core = { tag := .string, payload := .text s }) :
    bareAt o (.node id data []) place
      = [.token (if o.compact then withoutContinuations s else s)] := by
  have htag : data.tag = .string := congrArg Core.tag h
  have hpayload : data.payload = .text s := congrArg Core.payload h
  simp [bareAt, bareExpr, Tree.data, htag, Node.data?, hpayload]

theorem bareAt_regExp (h : data.core = { tag := .regExp, payload := .text s }) :
    bareAt o (.node id data []) place = [.regExp s] := by
  have htag : data.tag = .regExp := congrArg Core.tag h
  have hpayload : data.payload = .text s := congrArg Core.payload h
  simp [bareAt, bareExpr, Tree.data, htag, Node.data?, hpayload]

theorem bareAt_primary {value : Tag} (h : data.core = { tag := .primary, datum := some value }) :
    bareAt o (.node id data []) place = [.token value.spelling] := by
  have htag : data.tag = .primary := congrArg Core.tag h
  have hdatum : data.datum = some value := congrArg Core.datum h
  simp [bareAt, bareExpr, Tree.data, htag, Node.operator, hdatum]

end

/-! ## Literals and functions -/

/-- The keys and values of an object as they are written. -/
def pairSteps (o : RenderOptions) (pair : Tree × Tree) : List WriterStep :=
  .token (part o pair.1).text :: .token ":" :: .space
    :: exprAt o pair.2 { use := .operand Precedence.assignment }

theorem propertySteps_pairs (pairs : List (Tree × Tree)) :
    propertySteps ((Tree.flatPairs pairs).map (part o)) = pairs.map (pairSteps o) := by
  induction pairs with
  | nil => rfl
  | cons p pairs ih =>
    have hcons : Tree.flatPairs (p :: pairs) = p.1 :: p.2 :: Tree.flatPairs pairs := rfl
    rw [hcons, List.map_cons, List.map_cons, propertySteps, ih, List.map_cons, pairSteps]
    rfl

theorem bareAt_array {parts : List Tree} (h : data.core = { tag := .arrayLit }) :
    bareAt o (.node id data parts) place = arraySteps (parts.map (part o)) := by
  have htag : data.tag = .arrayLit := congrArg Core.tag h
  simp [bareAt, bareExpr, Tree.data, Tree.children, htag]

theorem bareAt_object {pairs : List (Tree × Tree)} (h : data.core = { tag := .objectLit }) :
    bareAt o (.node id data (Tree.flatPairs pairs)) place
      = .token "\x7b" :: separated (pairs.map (pairSteps o)) ++ [.token "\x7d"] := by
  have htag : data.tag = .objectLit := congrArg Core.tag h
  simp [bareAt, bareExpr, Tree.data, Tree.children, htag, objectSteps, propertySteps_pairs]

/-- A function as it is written: its head and its body. -/
def functionAt (o : RenderOptions) (f : FunctionData) (body : Tree) : List WriterStep :=
  .token "function" :: (f.name.elim .space .token) :: .token "("
    :: separated (f.params.map fun p => [.token p]) ++ .token ")" :: .space
    :: statementAt o body .block

theorem functionSteps_eq {f : FunctionData} {body : Tree} (h : data.payload = .function f) :
    functionSteps data [part o body] = functionAt o f body := by
  cases hname : f.name <;> simp [functionSteps, functionAt, Node.function?, h, hname]

theorem bareAt_function {f : FunctionData} {body : Tree}
    (h : data.core = { tag := .kwFunction, payload := .function f }) :
    bareAt o (.node id data [body]) place = functionAt o f body := by
  have htag : data.tag = .kwFunction := congrArg Core.tag h
  have hpayload : data.payload = .function f := congrArg Core.payload h
  rw [← functionSteps_eq hpayload]
  simp [bareAt, bareExpr, Tree.data, Tree.children, htag]

/-! ## Operations -/

/-- The place of a part that leads its expression. -/
def Place.lead (place : Place) (use : Use) : Place :=
  { use, noIn := place.noIn, leads := place.leads }

/-- The place of a part behind another one. -/
def Place.next (place : Place) (level : Nat) : Place := { use := .operand level, noIn := place.noIn }

section
variable {left right : Tree}

theorem bareAt_unary {operator : Tag} (h : data.core = { tag := .unary, datum := some operator }) :
    bareAt o (.node id data [left]) place
      = .token operator.spelling :: exprAt o left (place.next Precedence.unary) := by
  have htag : data.tag = .unary := congrArg Core.tag h
  have hdatum : data.datum = some operator := congrArg Core.datum h
  simp [bareAt, bareExpr, Tree.data, Tree.children, htag, Node.operator, hdatum, Place.next]

theorem bareAt_step {tag : Tag} {after : Bool} (h : data.core = { tag := tag, postfixForm := after })
    (ht : tag = .increment ∨ tag = .decrement) : bareAt o (.node id data [left]) place
      = if after then exprAt o left (place.lead (.operand Precedence.member)) ++ [.token tag.spelling]
        else .token tag.spelling :: exprAt o left (place.next Precedence.member) := by
  have htag : data.tag = tag := congrArg Core.tag h
  have hform : data.properties.flag .postfixForm = after := congrArg Core.postfixForm h
  rcases ht with rfl | rfl <;>
    simp [bareAt, bareExpr, Tree.data, Tree.children, htag, hform, Place.next, Place.lead]

theorem bareAt_assign {operator : Option Tag}
    (h : data.core = { tag := .assign, datum := operator }) :
    bareAt o (.node id data [left, right]) place
      = infixed (exprAt o left (place.lead (.operand Precedence.member)))
          (operator.elim "" Tag.spelling ++ "=") (exprAt o right (place.next Precedence.assignment)) := by
  have htag : data.tag = .assign := congrArg Core.tag h
  have hdatum : data.datum = operator := congrArg Core.datum h
  simp [bareAt, bareExpr, Tree.data, Tree.children, htag, hdatum, Place.next, Place.lead]

theorem bareAt_conditional {test : Tree} (h : data.core = { tag := .question }) :
    bareAt o (.node id data [test, left, right]) place
      = infixed (exprAt o test (place.lead (.operand Precedence.or))) "?"
          (infixed (exprAt o left (place.next Precedence.assignment)) ":"
            (exprAt o right (place.next Precedence.assignment))) := by
  have htag : data.tag = .question := congrArg Core.tag h
  simp [bareAt, bareExpr, Tree.data, Tree.children, htag, Place.next, Place.lead]

theorem bareAt_comma (h : data.core = { tag := .comma }) :
    bareAt o (.node id data [left, right]) place
      = exprAt o left (place.lead (.operand Precedence.comma))
          ++ .token "," :: .space :: exprAt o right (place.next Precedence.assignment) := by
  have htag : data.tag = .comma := congrArg Core.tag h
  simp [bareAt, bareExpr, Tree.data, Tree.children, htag, Place.next, Place.lead]

theorem bareAt_binary {tag : Tag} {datum : Option Tag} {level : Nat}
    (h : data.core = { tag := tag, datum := datum }) (hl : tag.binaryPrecedence? = some level) :
    bareAt o (.node id data [left, right]) place
      = infixed (exprAt o left (place.lead (.operand level))) (datum.getD tag).spelling
          (exprAt o right (place.next (level + 1))) := by
  have htag : data.tag = tag := congrArg Core.tag h
  have hdatum : data.datum = datum := congrArg Core.datum h
  cases tag <;> first
    | (simp [Tag.binaryPrecedence?] at hl; done)
    | simp [bareAt, bareExpr, Tree.data, Tree.children, htag, Node.operator, hdatum, hl,
        Place.next, Place.lead]

theorem bareAt_call {callee : Tree} {args : List Tree} (h : data.core = { tag := .call }) :
    bareAt o (.node id data (callee :: args)) place
      = exprAt o callee (place.lead .object) ++ argumentSteps (args.map (part o)) := by
  have htag : data.tag = .call := congrArg Core.tag h
  simp [bareAt, bareExpr, Tree.data, Tree.children, htag, Place.lead]

/-- Whether the arguments of a `new` are left out. -/
def leavesOut (args : List Tree) (place : Place) : Bool :=
  args.isEmpty && place.use matches .operand _

theorem bareAt_construct {callee : Tree} {args : List Tree} (h : data.core = { tag := .kwNew }) :
    bareAt o (.node id data (callee :: args)) place
      = .token "new" :: exprAt o callee { use := .callee, noIn := place.noIn }
          ++ if leavesOut args place then [] else argumentSteps (args.map (part o)) := by
  have htag : data.tag = .kwNew := congrArg Core.tag h
  obtain ⟨use, noIn, leads⟩ := place
  cases use <;> simp [bareAt, bareExpr, Tree.data, Tree.children, htag, leavesOut]

theorem bareAt_property {name : String} {ok : String → Prop} (h : data.core = { tag := .getProp })
    (hname : IsNamed ok name right) : bareAt o (.node id data [left, right]) place
      = exprAt o left (place.lead .object) ++ [.token ".", .token name] := by
  have htag : data.tag = .getProp := congrArg Core.tag h
  obtain ⟨hdata, -⟩ := hname
  simp [bareAt, bareExpr, Tree.data, Tree.children, htag, Place.lead, part_text hdata.core rfl]

theorem bareAt_index (h : data.core = { tag := .getElem }) :
    bareAt o (.node id data [left, right]) place
      = exprAt o left (place.lead .object)
          ++ .token "[" :: exprAt o right { use := .operand Precedence.comma } ++ [.token "]"] := by
  have htag : data.tag = .getElem := congrArg Core.tag h
  simp [bareAt, bareExpr, Tree.data, Tree.children, htag, Place.lead]

end

/-! ## Roles -/

theorem statementAt_listed (t : Tree) (first : Bool) : statementAt o t (.listed first)
    = .newline :: (if t.tag == .label then labelGap o first else [])
        ++ leadingComments o t.data ++ bareSteps o t := by
  rw [statementAt_eq]
  rfl

theorem statementAt_body (t : Tree) : statementAt o t .body
    = if t.tag == .block then .space :: bodySteps o t.data (t.children.map (part o))
      else .indent :: statementAt o t (.listed true) ++ [.outdent] := by
  rw [statementAt_eq, statementAt_eq]
  rfl

theorem statementAt_otherwise (t : Tree) : statementAt o t .otherwise
    = if t.tag == .kwIf then leadingComments o t.data ++ .space :: ifSteps (t.children.map (part o))
      else statementAt o t .body := by
  rw [statementAt_eq, statementAt_eq]
  rfl

theorem statementAt_block (parts : List Tree) : statementAt o (.node id data parts) .block
    = blockSteps o data (parts.map (part o)) := by
  rw [statementAt_eq]
  rfl

theorem statementAt_declared {name : String} {core : Core} {noIn : Bool} (values : List Tree)
    (h : data.core = core) (hp : core.payload.text? = some name) :
    statementAt o (.node id data values) (.declared noIn)
      = .token name :: match values with
        | [] => []
        | value :: _ => .space :: .token "=" :: .space
            :: exprAt o value { use := .operand Precedence.assignment, noIn } := by
  have htext : (part o (.node id data values)).text = name := part_text h hp
  rw [Part.text, part_data, Tree.data] at htext
  rw [statementAt_eq]
  cases values <;> simp [statementSteps, declaredSteps, Tree.data, Tree.children, htext]

/-- The first part of a loop header as it is written. -/
theorem statementAt_loopStart (t : Tree) : statementAt o t .loopStart
    = if t.tag == .empty then []
      else if t.tag == .kwVar then
        .token "var" :: separated (t.children.map fun name => statementAt o name (.declared true))
      else exprAt o t { use := .operand Precedence.comma, noIn := true } := by
  cases t with
  | node id data children =>
    rw [statementAt_eq, exprAt, part, partsOf_eq]
    simp [statementSteps, loopStartRole, varSteps, Tree.tag, Tree.data, Tree.children, Function.comp_def]

/-! ## Clauses -/

/-- The comments of a clause and the line it begins. -/
def clauseLead (o : RenderOptions) (n : Node) (first : Bool) : List WriterStep :=
  .newline :: labelGap o first ++ leadingComments o n ++ [.setBackLine]

theorem statementAt_case {test : Tree} {parts : List Tree} {first : Bool}
    (h : data.core = { tag := .kwCase }) :
    statementAt o (.node id data (test :: parts)) (.switchClause first)
      = clauseLead o data first ++ .token "case" :: exprAt o test { use := .operand Precedence.comma }
          ++ .token ":" :: listed (parts.map (part o)) := by
  have htag : data.tag = .kwCase := congrArg Core.tag h
  rw [statementAt_eq]
  simp [statementSteps, switchClauseSteps, Tree.data, Tree.children, htag, clauseLead]

theorem statementAt_default {parts : List Tree} {first : Bool}
    (h : data.core = { tag := .kwDefault }) :
    statementAt o (.node id data parts) (.switchClause first)
      = clauseLead o data first ++ .token "default" :: .token ":" :: listed (parts.map (part o)) := by
  have htag : data.tag = .kwDefault := congrArg Core.tag h
  rw [statementAt_eq]
  simp [statementSteps, switchClauseSteps, Tree.data, Tree.children, htag, clauseLead]

section
variable {ok : String → Prop} {name : String} {nameTree body : Tree}

theorem statementAt_catch (h : data.core = { tag := .kwCatch }) (hname : IsNamed ok name nameTree) :
    statementAt o (.node id data [nameTree, body]) .tryClause
      = headed "catch" ++ .token name :: .token ")" :: .space :: statementAt o body .block := by
  have htag : data.tag = .kwCatch := congrArg Core.tag h
  obtain ⟨hdata, -⟩ := hname
  rw [statementAt_eq]
  simp [statementSteps, tryClauseSteps, Tree.data, Tree.children, htag, part_text hdata.core rfl]

theorem statementAt_guarded {guard : Tree} (h : data.core = { tag := .kwCatch })
    (hname : IsNamed ok name nameTree) :
    statementAt o (.node id data [nameTree, guard, body]) .tryClause
      = headed "catch" ++ .token name :: .token "if"
          :: exprAt o guard { use := .operand Precedence.comma }
          ++ .token ")" :: .space :: statementAt o body .block := by
  have htag : data.tag = .kwCatch := congrArg Core.tag h
  obtain ⟨hdata, -⟩ := hname
  rw [statementAt_eq]
  simp [statementSteps, tryClauseSteps, Tree.data, Tree.children, htag, part_text hdata.core rfl]

theorem statementAt_finally (h : data.core = { tag := .kwFinally }) :
    statementAt o (.node id data [body]) .tryClause
      = .token "finally" :: .space :: statementAt o body .block := by
  have htag : data.tag = .kwFinally := congrArg Core.tag h
  rw [statementAt_eq]
  simp [statementSteps, tryClauseSteps, Tree.data, Tree.children, htag]

end

/-! ## Statements -/

/-- A keyword and a condition in parentheses, as they are written. -/
def headerAt (o : RenderOptions) (keyword : String) (test : Tree) (rest : List WriterStep) :
    List WriterStep :=
  headed keyword ++ exprAt o test { use := .operand Precedence.comma } ++ .token ")" :: rest

/-- Declarations as they are written. -/
def varAt (o : RenderOptions) (names : List Tree) (noIn : Bool) : List WriterStep :=
  .token "var" :: separated (names.map fun name => statementAt o name (.declared noIn))

section
variable {test yes no body value : Tree}

theorem bareSteps_function {f : FunctionData}
    (h : data.core = { tag := .kwFunction, payload := .function f }) :
    bareSteps o (.node id data [body]) = functionAt o f body ++ [.newline] := by
  have htag : data.tag = .kwFunction := congrArg Core.tag h
  have hpayload : data.payload = .function f := congrArg Core.payload h
  rw [← functionSteps_eq hpayload]
  simp [bareSteps, bareStatement, Tree.data, Tree.children, htag]

theorem bareSteps_block {parts : List Tree} (h : data.core = { tag := .block }) :
    bareSteps o (.node id data parts) = blockSteps o data (parts.map (part o)) ++ [.newline] := by
  have htag : data.tag = .block := congrArg Core.tag h
  simp [bareSteps, bareStatement, Tree.data, Tree.children, htag]

theorem bareSteps_var {names : List Tree} (h : data.core = { tag := .kwVar }) :
    bareSteps o (.node id data names) = varAt o names false ++ [.semicolon] := by
  have htag : data.tag = .kwVar := congrArg Core.tag h
  simp [bareSteps, bareStatement, Tree.data, Tree.children, htag, varSteps, varAt,
    Function.comp_def]

theorem bareSteps_expr (h : data.core = { tag := .exprStatement }) :
    bareSteps o (.node id data [value])
      = exprAt o value { use := .operand Precedence.comma, leads := true } ++ [.semicolon] := by
  have htag : data.tag = .exprStatement := congrArg Core.tag h
  simp [bareSteps, bareStatement, Tree.data, Tree.children, htag]

theorem bareSteps_empty (h : data.core = { tag := .empty }) :
    bareSteps o (.node id data []) = [.hardSemicolon] := by
  have htag : data.tag = .empty := congrArg Core.tag h
  simp [bareSteps, bareStatement, Tree.data, Tree.children, htag]

theorem bareSteps_if {rest : List Tree} (h : data.core = { tag := .kwIf }) :
    bareSteps o (.node id data (test :: yes :: rest))
      = ifSteps ((test :: yes :: rest).map (part o)) := by
  have htag : data.tag = .kwIf := congrArg Core.tag h
  simp [bareSteps, bareStatement, Tree.data, Tree.children, htag]

/-- An `if` behind an `else` is written as it is elsewhere. -/
theorem bareSteps_ofIf (h : t.tag = .kwIf) : bareSteps o t = ifSteps (t.children.map (part o)) := by
  have htag : t.data.tag = .kwIf := h
  simp [bareSteps, bareStatement, htag]

theorem ifSteps_then : ifSteps ([test, yes].map (part o))
    = headerAt o "if" test (statementAt o yes .body) := by
  simp [ifSteps, header, headerAt]

theorem ifSteps_else : ifSteps ([test, yes, no].map (part o))
    = headerAt o "if" test (statementAt o yes .body
        ++ afterBody (part o yes) :: .token "else" :: statementAt o no .otherwise) := by
  simp [ifSteps, header, headerAt]

theorem bareSteps_while (h : data.core = { tag := .kwWhile }) :
    bareSteps o (.node id data [test, body])
      = headerAt o "while" test (statementAt o body .body) := by
  have htag : data.tag = .kwWhile := congrArg Core.tag h
  simp [bareSteps, bareStatement, Tree.data, Tree.children, htag, header, headerAt]

theorem bareSteps_with (h : data.core = { tag := .kwWith }) :
    bareSteps o (.node id data [test, body]) = headerAt o "with" test (statementAt o body .body) := by
  have htag : data.tag = .kwWith := congrArg Core.tag h
  simp [bareSteps, bareStatement, Tree.data, Tree.children, htag, header, headerAt]

theorem bareSteps_do (h : data.core = { tag := .kwDo }) :
    bareSteps o (.node id data [body, test])
      = .token "do" :: statementAt o body .body
          ++ afterBody (part o body) :: headerAt o "while" test [.semicolon] := by
  have htag : data.tag = .kwDo := congrArg Core.tag h
  simp [bareSteps, bareStatement, Tree.data, Tree.children, htag, header, headerAt]

/-- A part of a loop header as it is written, with the semicolon before it. -/
def headerPartAt (o : RenderOptions) (t : Tree) : List WriterStep :=
  if t.tag == .empty then [.token ";"]
  else .token ";" :: .space :: exprAt o t { use := .operand Precedence.comma }

theorem bareSteps_for {start update : Tree} (h : data.core = { tag := .kwFor }) :
    bareSteps o (.node id data [start, test, update, body])
      = headed "for" ++ statementAt o start .loopStart ++ headerPartAt o test
          ++ headerPartAt o update ++ .token ")" :: statementAt o body .body := by
  have htag : data.tag = .kwFor := congrArg Core.tag h
  simp [bareSteps, bareStatement, Tree.data, Tree.children, htag, forSteps, headerPartSteps,
    headerPartAt]

theorem bareSteps_forIn {start object : Tree} (h : data.core = { tag := .forIn }) :
    bareSteps o (.node id data [start, object, body])
      = headed "for" ++ statementAt o start .loopStart
          ++ .token "in" :: exprAt o object { use := .operand Precedence.comma }
          ++ .token ")" :: statementAt o body .body := by
  have htag : data.tag = .forIn := congrArg Core.tag h
  simp [bareSteps, bareStatement, Tree.data, Tree.children, htag, forInSteps]

theorem bareSteps_keyword {tag : Tag} (h : data.core = { tag := tag })
    (ht : tag = .kwBreak ∨ tag = .kwContinue ∨ tag = .kwReturn) :
    bareSteps o (.node id data []) = [.token tag.spelling, .semicolon] := by
  have htag : data.tag = tag := congrArg Core.tag h
  rcases ht with rfl | rfl | rfl <;>
    simp [bareSteps, bareStatement, Tree.data, Tree.children, htag]

theorem bareSteps_value {tag : Tag} (h : data.core = { tag := tag })
    (ht : tag = .kwReturn ∨ tag = .kwThrow) : bareSteps o (.node id data [value])
      = .token tag.spelling :: exprAt o value { use := .operand Precedence.comma }
          ++ [.semicolon] := by
  have htag : data.tag = tag := congrArg Core.tag h
  rcases ht with rfl | rfl <;> simp [bareSteps, bareStatement, Tree.data, Tree.children, htag]

theorem bareSteps_jump {tag : Tag} {ok : String → Prop} {name : String} {nameTree : Tree}
    (h : data.core = { tag := tag }) (ht : tag = .kwBreak ∨ tag = .kwContinue)
    (hname : IsNamed ok name nameTree) : bareSteps o (.node id data [nameTree])
      = [.token tag.spelling, .token name, .semicolon] := by
  have htag : data.tag = tag := congrArg Core.tag h
  obtain ⟨hdata, -⟩ := hname
  rcases ht with rfl | rfl <;>
    simp [bareSteps, bareStatement, Tree.data, Tree.children, htag, part_text hdata.core rfl]

/-- The clauses of a switch as they are written. -/
def clausesAt (o : RenderOptions) : List Tree → List WriterStep
  | [] => []
  | first :: rest => statementAt o first (.switchClause true)
      ++ rest.flatMap fun c => statementAt o c (.switchClause false)

theorem bareSteps_switch {clauses : List Tree} (h : data.core = { tag := .kwSwitch }) :
    bareSteps o (.node id data (value :: clauses))
      = headerAt o "switch" value (.space :: .token "\x7b" :: .indent :: clausesAt o clauses)
          ++ trailingComments o data ++ [.outdent, .newline, .token "\x7d"] := by
  have htag : data.tag = .kwSwitch := congrArg Core.tag h
  cases clauses <;> simp [bareSteps, bareStatement, Tree.data, Tree.children, htag, switchSteps,
    header, headerAt, clausesAt, List.flatMap_map]

theorem bareSteps_try {clauses : List Tree} (h : data.core = { tag := .kwTry }) :
    bareSteps o (.node id data (body :: clauses))
      = .token "try" :: .space :: statementAt o body .block
          ++ clauses.flatMap fun c => .space :: statementAt o c .tryClause := by
  have htag : data.tag = .kwTry := congrArg Core.tag h
  simp [bareSteps, bareStatement, Tree.data, Tree.children, htag, trySteps, List.flatMap_map]

theorem bareSteps_label {ok : String → Prop} {name : String} {nameTree : Tree}
    (h : data.core = { tag := .label }) (hname : IsNamed ok name nameTree) :
    bareSteps o (.node id data [nameTree, body])
      = .setBackLine :: .token name :: .token ":" :: .newline
          :: statementAt o body (.listed true) := by
  have htag : data.tag = .label := congrArg Core.tag h
  obtain ⟨hdata, -⟩ := hname
  simp [bareSteps, bareStatement, Tree.data, Tree.children, htag, part_text hdata.core rfl]

end

/-! ## Lists -/

/-- Statements in a list as they are written. -/
def listedAt (o : RenderOptions) : List Tree → List WriterStep
  | [] => []
  | first :: rest => statementAt o first (.listed true)
      ++ rest.flatMap fun t => statementAt o t (.listed false)

theorem listed_eq (ts : List Tree) : listed (ts.map (part o)) = listedAt o ts := by
  cases ts <;> simp [listed, listedAt, List.flatMap_map]

end ScriptPress.Render
