import ScriptPress.Proofs.Printing.SameRun

/-! # Plain trees

Output without comments tells little of a tree: the tags, data and payloads of its nodes, on which
side of its operand a step stands, and of a function its name and its parameters. A tree with all
else taken away is written as the tree itself.
-/
namespace ScriptPress

/-- A payload without the role of a function and what it tells about its body. -/
def Payload.plain : Payload → Payload
  | .function f => .function { name := f.name, role := .statement, params := f.params }
  | payload => payload

/-- A node with nothing but what shows in output without comments. -/
def Node.plain (n : Node) : Node :=
  { tag := n.tag, datum := n.datum, line := 0, payload := n.payload.plain : Node }.mark
    .postfixForm (n.properties.flag .postfixForm)

namespace Tree

mutual

def plain : Tree → Tree
  | node _ data children => .node ⟨0⟩ data.plain (plainAll children)

def plainAll : List Tree → List Tree
  | [] => []
  | t :: rest => plain t :: plainAll rest

end

theorem plainAll_eq (ts : List Tree) : plainAll ts = ts.map plain := by
  induction ts with
  | nil => rfl
  | cons t ts ih => rw [plainAll, ih, List.map_cons]

@[simp] theorem plain_node (id : NodeId) (data : Node) (children : List Tree) :
    (node id data children).plain = .node ⟨0⟩ data.plain (children.map plain) := by
  rw [plain, plainAll_eq]

end Tree

namespace Node
variable (n : Node)

@[simp] theorem plain_tag : n.plain.tag = n.tag := by
  rw [plain, mark]

@[simp] theorem plain_datum : n.plain.datum = n.datum := by
  rw [plain, mark]

@[simp] theorem plain_payload : n.plain.payload = n.payload.plain := by
  rw [plain, mark]

@[simp] theorem plain_flag :
    n.plain.properties.flag .postfixForm = n.properties.flag .postfixForm := by
  cases h : n.properties.flag .postfixForm <;> rw [plain, h] <;> rfl

@[simp] theorem plain_operator : n.plain.operator = n.operator := by
  rw [operator, plain_datum, plain_tag, operator]

@[simp] theorem plain_data? : n.plain.data? = n.data? := by
  rw [data?, data?, plain_payload]
  cases n.payload <;> rfl

@[simp] theorem plain_precedence : n.plain.precedence = n.precedence := by
  rw [precedence, precedence, plain_tag, plain_flag]

theorem plain_congr {n n' : Node} (htag : n.tag = n'.tag) (hdatum : n.datum = n'.datum)
    (hpayload : n.payload.plain = n'.payload.plain)
    (hform : n.properties.flag .postfixForm = n'.properties.flag .postfixForm) :
    n.plain = n'.plain := by
  rw [plain, plain, htag, hdatum, hpayload, hform]

end Node

namespace Tree

@[simp] theorem plain_data (t : Tree) : t.plain.data = t.data.plain := by
  cases t
  rw [plain_node, data, data]

@[simp] theorem plain_children (t : Tree) : t.plain.children = t.children.map plain := by
  cases t
  rw [plain_node, children, children]

@[simp] theorem plain_tag (t : Tree) : t.plain.tag = t.tag := by
  rw [tag, plain_data, Node.plain_tag, tag]

end Tree

namespace Render
variable {o : RenderOptions}

/-! ## Nodes -/

theorem containsCall_plain (t : Tree) : t.plain.containsCall = t.containsCall := by
  induction t using Tree.induction with
  | node id data children ih =>
    have hobject : (children.map Tree.plain).head?.any Tree.containsCall
        = children.head?.any Tree.containsCall := by
      cases children with
      | nil => rfl
      | cons object rest => exact ih object (by simp)
    rw [Tree.plain_node, containsCall_node, containsCall_node, hobject, Node.plain_tag]

theorem needsParens_plain (t : Tree) (place : Place) :
    needsParens t.plain place = needsParens t place := by
  unfold needsParens opensOtherStatement isInOperation isWholeNumber
  simp only [containsCall_plain, Tree.plain_data, Node.plain_tag, Node.plain_datum,
    Node.plain_data?, Node.plain_precedence]

theorem functionSteps_plain (n : Node) (ps : List Part) :
    functionSteps n.plain ps = functionSteps n ps := by
  unfold functionSteps Node.function?
  rw [Node.plain_payload]
  cases n.payload <;> rfl

theorem bareExpr_plain (n : Node) (ps : List Part) (place : Place) :
    bareExpr o n.plain ps place = bareExpr o n ps place := by
  unfold bareExpr
  simp only [functionSteps_plain, Node.plain_tag, Node.plain_datum, Node.plain_data?,
    Node.plain_operator, Node.plain_flag]

/-! ## Parts -/

namespace Part

/-- A part with its tree in plain form; what is written of it stays. -/
def plain (p : Part) : Part := { p with tree := p.tree.plain }

variable (p : Part)

@[simp] theorem plain_expr : p.plain.expr = p.expr := rfl

@[simp] theorem plain_statement : p.plain.statement = p.statement := rfl

@[simp] theorem plain_operand (level : Nat) (noIn : Bool) :
    p.plain.operand level noIn = p.operand level noIn := rfl

@[simp] theorem plain_enclosed (level : Nat) : p.plain.enclosed level = p.enclosed level := rfl

@[simp] theorem plain_tag : p.plain.tag = p.tag := by
  rw [tag, data, plain, Tree.plain_data, Node.plain_tag, tag, data]

@[simp] theorem plain_text : p.plain.text = p.text := by
  rw [text, data, plain, Tree.plain_data, Node.plain_data?, text, data]

end Part

section
variable (ps : List Part)

/-! ### Parts of expressions -/

theorem functionSteps_parts (n : Node) :
    functionSteps n (ps.map Part.plain) = functionSteps n ps := by
  cases ps <;> rfl

theorem elementSteps_parts : elementSteps (ps.map Part.plain) = elementSteps ps := by
  induction ps with
  | nil => rfl
  | cons p ps ih =>
    rw [List.map_cons, elementSteps, elementSteps, ih, Part.plain_tag, Part.plain_enclosed]

theorem arraySteps_parts : arraySteps (ps.map Part.plain) = arraySteps ps := by
  have hlast : (ps.map Part.plain).getLast?.any (·.tag == .empty)
      = ps.getLast?.any (·.tag == .empty) := by
    rw [List.getLast?_map, Option.any_map]
    simp
  unfold arraySteps
  rw [hlast]
  cases ps with
  | nil => rfl
  | cons p ps => simp only [List.map_cons, elementSteps_parts, Part.plain_tag, Part.plain_enclosed]

theorem propertySteps_parts : propertySteps (ps.map Part.plain) = propertySteps ps := by
  fun_induction propertySteps ps with
  | case1 => rfl
  | case2 key => simp [propertySteps]
  | case3 key value rest ih => simp [propertySteps, ih]

theorem objectSteps_parts : objectSteps (ps.map Part.plain) = objectSteps ps := by
  rw [objectSteps, objectSteps, propertySteps_parts]

theorem bareExpr_parts (n : Node) (place : Place) :
    bareExpr o n (ps.map Part.plain) place = bareExpr o n ps place := by
  unfold bareExpr
  simp only [functionSteps_parts, arraySteps_parts, objectSteps_parts]
  -- the type of the node and the number of its children decide what is written
  rcases ps with _ | ⟨p, _ | ⟨q, _ | ⟨r, rest⟩⟩⟩
  · rfl
  all_goals
    simp only [List.map_cons, List.map_nil]
    cases n.tag <;>
      simp only [Part.plain_text, argumentSteps, List.map_cons, List.map_map] <;> rfl

/-! ### Parts of statements -/

theorem headerPartSteps_part (p : Part) : headerPartSteps p.plain = headerPartSteps p := by
  rw [headerPartSteps, headerPartSteps, Part.plain_tag, Part.plain_enclosed]

theorem afterBody_part (p : Part) : afterBody p.plain = afterBody p := by
  rw [afterBody, afterBody, isBlock, isBlock, Part.plain_tag]

theorem ifSteps_parts : ifSteps (ps.map Part.plain) = ifSteps ps := by
  rcases ps with _ | ⟨test, _ | ⟨yes, _ | ⟨no, rest⟩⟩⟩
  · rfl
  · rfl
  · rfl
  · simp only [List.map_cons, ifSteps, afterBody_part]
    rfl

theorem varSteps_parts (noIn : Bool) : varSteps (ps.map Part.plain) noIn = varSteps ps noIn := by
  rw [varSteps, varSteps, List.map_map]
  rfl

theorem declaredSteps_parts (n : Node) (noIn : Bool) :
    declaredSteps n (ps.map Part.plain) noIn = declaredSteps n ps noIn := by
  cases ps <;> rfl

theorem forSteps_parts : forSteps (ps.map Part.plain) = forSteps ps := by
  rcases ps with _ | ⟨start, _ | ⟨test, _ | ⟨update, _ | ⟨body, rest⟩⟩⟩⟩
  · rfl
  · rfl
  · rfl
  · rfl
  · simp only [List.map_cons, forSteps, headerPartSteps_part, Part.plain_statement]

theorem forInSteps_parts : forInSteps (ps.map Part.plain) = forInSteps ps := by
  rcases ps with _ | ⟨start, _ | ⟨object, _ | ⟨body, rest⟩⟩⟩ <;> rfl

theorem listed_parts : listed (ps.map Part.plain) = listed ps := by
  cases ps with
  | nil => rfl
  | cons first rest =>
    rw [List.map_cons, listed, listed, List.flatMap_map]
    rfl

theorem switchSteps_parts (n : Node) :
    switchSteps o n (ps.map Part.plain) = switchSteps o n ps := by
  rcases ps with _ | ⟨value, _ | ⟨first, rest⟩⟩
  · rfl
  · rfl
  · simp only [List.map_cons, switchSteps, List.flatMap_map, Part.plain_statement]
    rfl

theorem trySteps_parts : trySteps (ps.map Part.plain) = trySteps ps := by
  cases ps with
  | nil => rfl
  | cons body clauses =>
    rw [List.map_cons, trySteps, trySteps, List.flatMap_map]
    rfl

theorem switchClauseSteps_parts (n : Node) (first : Bool) :
    switchClauseSteps o n (ps.map Part.plain) first = switchClauseSteps o n ps first := by
  unfold switchClauseSteps
  rw [listed_parts, ← List.map_drop, listed_parts]
  cases ps <;> rfl

theorem tryClauseSteps_parts (n : Node) :
    tryClauseSteps n (ps.map Part.plain) = tryClauseSteps n ps := by
  cases ps with
  | nil => rfl
  | cons name rest =>
    have hlast : (rest.map Part.plain).getLast?.getD name.plain
        = (rest.getLast?.getD name).plain := by
      rw [List.getLast?_map, Option.getD_map]
    unfold tryClauseSteps
    simp only [List.map_cons, hlast, Part.plain_text, Part.plain_statement]
    rcases rest with _ | ⟨guard, _ | ⟨body, _ | ⟨more, rest⟩⟩⟩ <;> rfl

end

/-! ## Trees -/

theorem exprSteps_plain (t : Tree) (ps : List Part) (place : Place) :
    exprSteps o t.plain (ps.map Part.plain) place = exprSteps o t ps place := by
  unfold exprSteps
  simp only [needsParens_plain, Tree.plain_data, bareExpr_plain, bareExpr_parts]

section
variable (ho : o.writesComments = false)
include ho

theorem commentSteps_nil (kind : PropertyKind) (n : Node) : commentSteps o kind n = [] := by
  rw [commentSteps, ho]
  rfl

theorem leadingComments_nil (n : Node) : leadingComments o n = [] := commentSteps_nil ho _ n

theorem trailingComments_nil (n : Node) : trailingComments o n = [] := commentSteps_nil ho _ n

theorem blockSteps_plain (n : Node) (ps : List Part) :
    blockSteps o n.plain (ps.map Part.plain) = blockSteps o n ps := by
  simp only [blockSteps, blockRest, listed_parts, trailingComments_nil ho]

theorem switchSteps_plain (n : Node) (ps : List Part) :
    switchSteps o n.plain ps = switchSteps o n ps := by
  simp only [switchSteps, trailingComments_nil ho]

theorem bareStatement_plain (t : Tree) (ps : List Part) :
    bareStatement o t.plain (ps.map Part.plain) = bareStatement o t ps := by
  unfold bareStatement
  simp only [Tree.plain_data, Node.plain_tag, functionSteps_plain, functionSteps_parts,
    blockSteps_plain ho, varSteps_parts, ifSteps_parts, forSteps_parts, forInSteps_parts,
    switchSteps_plain ho, switchSteps_parts, trySteps_parts, exprSteps_plain]
  rcases ps with _ | ⟨p, _ | ⟨q, rest⟩⟩
  · rfl
  all_goals
    simp only [List.map_cons, List.map_nil]
    cases t.data.tag <;> simp only [Part.plain_text, afterBody_part] <;> rfl

theorem listedSteps_plain (t : Tree) (ps : List Part) (first : Bool) :
    listedSteps o t.plain (ps.map Part.plain) first = listedSteps o t ps first := by
  simp only [listedSteps, Tree.plain_tag, leadingComments_nil ho, bareStatement_plain ho]

theorem bodyRole_plain (t : Tree) (ps : List Part) :
    bodyRole o t.plain (ps.map Part.plain) = bodyRole o t ps := by
  simp only [bodyRole, bodySteps, blockRest, Tree.plain_tag, leadingComments_nil ho,
    trailingComments_nil ho, listed_parts, listedSteps_plain ho]

theorem statementSteps_plain (t : Tree) (ps : List Part) (role : Role) :
    statementSteps o t.plain (ps.map Part.plain) role = statementSteps o t ps role := by
  cases role with
  | listed first => exact listedSteps_plain ho t ps first
  | body => exact bodyRole_plain ho t ps
  | otherwise =>
    simp only [statementSteps, otherwiseRole, Tree.plain_tag, leadingComments_nil ho,
      ifSteps_parts, bodyRole_plain ho]
  | block =>
    rw [statementSteps, Tree.plain_data]
    exact blockSteps_plain ho t.data ps
  | switchClause first =>
    simp only [statementSteps, switchClauseSteps_parts]
    simp only [switchClauseSteps, Tree.plain_data, Node.plain_tag, leadingComments_nil ho]
  | tryClause =>
    simp only [statementSteps, tryClauseSteps_parts]
    simp only [tryClauseSteps, Tree.plain_data, Node.plain_tag]
  | loopStart =>
    simp only [statementSteps, loopStartRole, Tree.plain_tag, varSteps_parts, exprSteps_plain]
  | declared noIn =>
    simp only [statementSteps, declaredSteps_parts]
    simp only [declaredSteps, Tree.plain_data, Node.plain_data?]

/-- What is written of a tree at its place is written of the plain tree. -/
theorem part_plain (t : Tree) : part o t.plain = (part o t).plain := by
  induction t using Tree.induction with
  | node id data children ih =>
    have hparts : (children.map Tree.plain).map (part o) = (children.map (part o)).map Part.plain := by
      rw [List.map_map, List.map_map]
      exact List.map_congr_left ih
    have hexpr := exprSteps_plain (o := o) (.node id data children) (children.map (part o))
    have hstatement := statementSteps_plain ho (.node id data children) (children.map (part o))
    rw [Tree.plain_node] at hexpr hstatement ⊢
    rw [part, part, partsOf_eq, partsOf_eq, hparts, funext hexpr, funext hstatement, Part.plain,
      Tree.plain_node]

/-- Output without comments depends on the plain tree. -/
theorem script_plain (t : Tree) : script o t.plain = script o t := by
  have hparts : (t.children.map Tree.plain).map (part o)
      = (t.children.map (part o)).map Part.plain := by
    rw [List.map_map, List.map_map]
    exact List.map_congr_left fun c _ => part_plain ho c
  rw [script, script, scriptSteps, scriptSteps, trailingComments_nil ho, trailingComments_nil ho,
    partsOf_eq, partsOf_eq, Tree.plain_children, hparts, listed_parts]

end
end Render
end ScriptPress
