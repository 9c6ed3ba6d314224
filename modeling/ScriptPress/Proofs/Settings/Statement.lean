import ScriptPress.Proofs.Settings.Expression

/-! # Statements in a frame

The readers of statements, one for each reader of the grammar.
-/
namespace ScriptPress

namespace Tree
variable {v : Framing}

mutual

theorem hasEffect_framed : (t : Tree) → (t.framed v).hasEffect = t.hasEffect
  | node id data children => by
    have htag : (data.framed v).tag = data.tag := rfl
    have hdatum : (data.framed v).datum = data.datum := rfl
    have hlast := lastHasEffect_framed children
    rw [framed_node, hasEffect.eq_def, hasEffect.eq_def (node id data children)]
    simp only [htag, hdatum, hlast]
    -- Only a conditional is judged by its children one by one.
    split <;> try rfl
    cases children with
    | nil => rw [framedAll_eq]; rfl
    | cons t rest =>
      have hrest := allHaveEffect_framed rest
      rw [framedAll_eq] at hrest ⊢
      exact hrest

theorem lastHasEffect_framed : (ts : List Tree) →
    lastHasEffect (framedAll v ts) = lastHasEffect ts
  | [] => by rw [framedAll]
  | [t] => by
    rw [framedAll, framedAll, lastHasEffect, lastHasEffect]
    exact hasEffect_framed t
  | t :: u :: rest => by
    have hrest := lastHasEffect_framed (u :: rest)
    rw [framedAll] at hrest ⊢
    rw [framedAll]
    exact hrest

theorem allHaveEffect_framed : (ts : List Tree) →
    allHaveEffect (framedAll v ts) = allHaveEffect ts
  | [] => by rw [framedAll]
  | t :: rest => by
    rw [framedAll, allHaveEffect, allHaveEffect, hasEffect_framed t, allHaveEffect_framed rest]

end

end Tree

namespace Grammar
variable {α β γ δ : Type} {v : Framing} {g : Grammar} (hg : g.Even v)
include hg

theorem frames_block (construct : String) :
    Frames v (Tree.framed v) (g.block construct) (g.block construct) :=
  (frames_expect _ _).bind fun _ => frames_blockAfterBrace hg false construct rfl

/-! ## Declarations -/

omit hg in
/-- A node that is made with its identity. -/
theorem frames_node (id : NodeId) {data data' : Node} {children children' : List Tree}
    (hdata : data' = data.framed v) (hchildren : children' = children.map (Tree.framed v)) :
    Frames v (Tree.framed v) (pure (.node id data children)) (pure (.node id data' children')) := by
  refine frames_pure ?_
  rw [Tree.framed_node, Tree.framedAll_eq, hdata, hchildren]

theorem frames_declaration (noIn : Bool) :
    Frames v (Tree.framed v) (g.declaration noIn) (g.declaration noIn) := by
  refine (frames_declaredName _).bind fun p => (frames_declare p.1 rfl).bind fun _ => ?_
  refine frames_freshId.bind fun id => frames_get fun s => .ite rfl ?_ (frames_node id rfl rfl)
  exact frames_advance.bind fun _ => (hg.assignment noIn).bind fun value => frames_node id rfl rfl

theorem frames_declarations (noIn : Bool) :
    Frames v (Tree.framed v) (g.declarations noIn) (g.declarations noIn) := by
  refine frames_advance.bind fun opening => ?_
  refine (frames_itemsBetweenCommas (frames_declaration hg noIn)).bind fun names => ?_
  exact frames_makeNode rfl rfl

/-! ## Conditions and loops -/

theorem frames_condition (keyword : Tag) :
    Frames v (Tree.framed v) (g.condition keyword) (g.condition keyword) := by
  refine (frames_expect _ _).bind fun _ => (hg.expression false).bind fun test => ?_
  refine .ite (by rw [Tree.tag_framed, Tree.datum_framed]) ?_ ?_
  · refine (frames_warn _ (Tree.line_framed test)).bind fun _ => ?_
    exact (frames_expect _ _).bind fun _ => frames_pure rfl
  · exact (frames_expect _ _).bind fun _ => frames_pure rfl

theorem frames_ifStatement : Frames v (Tree.framed v) g.ifStatement g.ifStatement := by
  refine frames_advance.bind fun opening => (frames_condition hg _).bind fun test => ?_
  refine (hg.statement false).bind fun yes => (frames_accept _).bind fun _ => .ite rfl ?_ ?_
  · exact (hg.statement false).bind fun no => frames_makeNode rfl rfl
  · exact frames_makeNode rfl rfl

/-- A statement that is open for jumps. -/
theorem frames_loopBody (id : NodeId) (pending : List NodeId) :
    Frames v (Tree.framed v) (withTarget id true pending (g.statement false))
      (withTarget id true pending (g.statement false)) :=
  frames_withTarget id true pending (hg.statement false)

theorem frames_whileStatement (pending : List NodeId) :
    Frames v (Tree.framed v) (g.whileStatement pending) (g.whileStatement pending) := by
  refine frames_advance.bind fun opening => frames_freshId.bind fun id => ?_
  refine (frames_condition hg _).bind fun test => ?_
  refine (frames_loopBody hg id pending).bind fun body => frames_withJumps ?_
  simp only [Tree.framed_node, Tree.framedAll_eq]
  rfl

theorem frames_doStatement (pending : List NodeId) :
    Frames v (Tree.framed v) (g.doStatement pending) (g.doStatement pending) := by
  refine frames_advance.bind fun opening => frames_freshId.bind fun id => ?_
  refine (frames_loopBody hg id pending).bind fun body => (frames_expect _ _).bind fun _ => ?_
  refine (frames_condition hg _).bind fun test => (frames_accept _).bind fun _ => ?_
  refine frames_withJumps ?_
  simp only [Tree.framed_node, Tree.framedAll_eq]
  rfl

omit hg in
theorem frames_headerPart (before : Tag) {part : Reading Tree}
    (h : Frames v (Tree.framed v) part part) :
    Frames v (Tree.framed v) (headerPart before part) (headerPart before part) :=
  frames_get fun _ => .ite rfl (frames_makeNode rfl rfl) h

theorem frames_forStart : Frames v (Tree.framed v) g.forStart g.forStart :=
  frames_headerPart _ (frames_ifCheck (frames_declarations hg true) (hg.expression true))

omit hg in
theorem isForInTarget_framed (t : Tree) : isForInTarget (t.framed v) = isForInTarget t := by
  rw [isForInTarget, isForInTarget, Tree.tag_framed, Tree.children_framed, Tree.framedAll_eq,
    List.length_map]

theorem frames_forHeader (first : Tree) :
    Frames v (fun p => (p.1, p.2.map (Tree.framed v))) (g.forHeader first)
      (g.forHeader (first.framed v)) := by
  refine frames_ifCheck (.ite (isForInTarget_framed first) ?_ ?_) ?_
  · exact frames_advance.bind fun _ => (hg.expression false).bind fun object => frames_pure rfl
  · exact frames_failAt _ (Tree.line_framed first)
  · refine (frames_expect _ _).bind fun _ => ?_
    refine (frames_headerPart _ (hg.expression false)).bind fun test => ?_
    refine (frames_expect _ _).bind fun _ => ?_
    exact (frames_headerPart _ (hg.expression false)).bind fun update => frames_pure rfl

theorem frames_forStatement (pending : List NodeId) :
    Frames v (Tree.framed v) (g.forStatement pending) (g.forStatement pending) := by
  refine frames_advance.bind fun opening => (frames_expect _ _).bind fun _ => ?_
  refine (frames_forStart hg).bind fun first => (frames_forHeader hg first).bind fun p => ?_
  refine frames_freshId.bind fun id => (frames_expect _ _).bind fun _ => ?_
  refine (frames_loopBody hg id pending).bind fun body => frames_withJumps ?_
  rw [Tree.framed_node, Tree.framedAll_eq, List.map_append]
  rfl

/-! ## Jumps -/

omit hg in
theorem frames_jumpLabel : Frames v id jumpLabel jumpLabel :=
  frames_get fun _ => .ite rfl (frames_advance.bind fun _ => frames_pure rfl) (frames_pure rfl)

omit hg in
theorem frames_labelNode (label? : Option String) {line line' : Nat} (h : line' = line + v.before) :
    Frames v (List.map (Tree.framed v)) (labelNode label? line) (labelNode label? line') := by
  cases label? with
  | none => exact frames_pure rfl
  | some label =>
    subst h
    exact (frames_makeNode rfl rfl).bind fun _ => frames_pure rfl

omit hg in
theorem frames_jumpStatement : Frames v (Tree.framed v) jumpStatement jumpStatement := by
  refine frames_advance.bind fun opening => frames_jumpLabel.bind fun label? => ?_
  refine (frames_destination _ label? rfl).bind fun target => frames_freshId.bind fun id => ?_
  refine (frames_labelNode label? rfl).bind fun name => ?_
  refine Frames.bind (frames_modify fun _ => rfl) fun _ => ?_
  exact frames_endStatement.bind fun _ => frames_node id (framed_jump _ _ _ _).symm rfl

theorem frames_returnStatement :
    Frames v (Tree.framed v) g.returnStatement g.returnStatement := by
  let rest : Reading Tree := do
    let opening ← advance
    if endsStatement (← get).current then
      endStatement
      makeNode (.leaf .kwReturn opening.line) []
    else
      let value ← g.expression false
      endStatement
      makeNode (.leaf .kwReturn opening.line) [value]
  have hrest : Frames v (Tree.framed v) rest rest := by
    refine frames_advance.bind fun opening => frames_get fun s => .ite rfl ?_ ?_
    · exact frames_endStatement.bind fun _ => frames_makeNode rfl rfl
    · refine (hg.expression false).bind fun value => ?_
      exact frames_endStatement.bind fun _ => frames_makeNode rfl rfl
  exact frames_get fun s => .ite rfl (frames_fail _) hrest

theorem frames_withStatement : Frames v (Tree.framed v) g.withStatement g.withStatement := by
  refine frames_advance.bind fun opening => (frames_expect _ _).bind fun _ => ?_
  refine (hg.expression false).bind fun object => (frames_expect _ _).bind fun _ => ?_
  refine frames_needActivation.bind fun _ => (hg.statement false).bind fun body => ?_
  exact frames_makeNode rfl rfl

/-! ## Switch -/

/-- A clause before its statements. -/
def framedHead (v : Framing) (p : Node × List Tree) : Node × List Tree :=
  (p.1.framed v, p.2.map (Tree.framed v))

theorem frames_clauseHead (hasDefault : Bool) :
    Frames v (framedHead v) (g.clauseHead hasDefault) (g.clauseHead hasDefault) := by
  refine frames_get fun s => ?_
  simp only [State.current_framed, Token.tag_framed, Token.line_framed]
  split
  · refine frames_advance.bind fun _ => (hg.expression false).bind fun test => ?_
    exact (frames_expect _ _).bind fun _ => frames_pure rfl
  · refine .ite rfl (frames_fail _) (frames_advance.bind fun _ => ?_)
    exact (frames_expect _ _).bind fun _ => frames_pure rfl
  · exact frames_fail _
  · exact frames_unexpected

theorem frames_clauseTurn (clauses : List Tree) :
    Frames v (Turn.map (List.map (Tree.framed v)) (List.map (Tree.framed v)))
      (g.clauseTurn clauses) (g.clauseTurn (clauses.map (Tree.framed v))) := by
  have hdefault : (clauses.map (Tree.framed v)).any (·.tag == .kwDefault)
      = clauses.any (·.tag == .kwDefault) := by
    rw [List.any_map]
    congr 1
    funext t
    exact congrArg (· == Tag.kwDefault) (Tree.tag_framed t)
  refine frames_ifCheck (frames_pure rfl) (frames_takeComments.bind fun comments => ?_)
  rw [hdefault]
  refine (frames_clauseHead hg _).bind fun p => frames_freshId.bind fun id => ?_
  refine (frames_itemsUntil (fun _ => rfl) (hg.statement false) p.2).bind fun statements => ?_
  refine frames_pure ?_
  rw [Turn.map, List.map_append, List.map_singleton, framed_withComments (.inl rfl),
    Tree.framed_node, Tree.framedAll_eq]
  rfl

omit hg in
theorem framed_switchNode (line : Nat) (clauses : List Tree) :
    (switchNode line clauses).framed v
      = switchNode (line + v.before) (clauses.map (Tree.framed v)) := by
  have hcases : ((clauses.map (Tree.framed v)).filter (·.tag == .kwCase)).map Tree.id
      = (clauses.filter (·.tag == .kwCase)).map Tree.id := by
    simp only [List.filter_map, List.map_map]
    congr 1
    · funext t
      exact Tree.id_framed t
    · congr 1
      funext t
      exact congrArg (· == Tag.kwCase) (Tree.tag_framed t)
  have hdefault : ((clauses.map (Tree.framed v)).find? (·.tag == .kwDefault)).map Tree.id
      = (clauses.find? (·.tag == .kwDefault)).map Tree.id := by
    rw [List.find?_map, Option.map_map]
    congr 1
    · funext t
      exact Tree.id_framed t
    · congr 1
      funext t
      exact congrArg (· == Tag.kwDefault) (Tree.tag_framed t)
  simp only [switchNode, hcases, hdefault, Node.framed]
  rw [Properties.framed_putIf _ _ rfl]
  have hcasesFixed : PropertyKind.cases.isFixed = true := rfl
  simp only [Node.put, Properties.framed_fixed _ _ hcasesFixed]
  rfl

theorem frames_switchStatement :
    Frames v (Tree.framed v) g.switchStatement g.switchStatement := by
  have hclauses : Frames v (List.map (Tree.framed v)) g.clauses g.clauses :=
    frames_repeatTurns (frames_clauseTurn hg) []
  refine frames_advance.bind fun opening => frames_freshId.bind fun id => ?_
  refine (frames_expect _ _).bind fun _ => (hg.expression false).bind fun value => ?_
  refine (frames_expect _ _).bind fun _ => (frames_expect _ _).bind fun _ => ?_
  refine (frames_withTarget id false [] hclauses).bind fun clauses => ?_
  refine frames_takeComments.bind fun comments => (frames_expect _ _).bind fun _ => ?_
  refine frames_withJumps ?_
  rw [framed_withComments (.inr rfl), Tree.framed_node, Tree.framedAll_eq, framed_switchNode]
  rfl

/-! ## Exceptions -/

theorem frames_throwStatement : Frames v (Tree.framed v) g.throwStatement g.throwStatement := by
  refine frames_advance.bind fun opening => frames_get fun s => .ite rfl (frames_fail _) ?_
  refine (hg.expression false).bind fun value => frames_endStatement.bind fun _ => ?_
  exact frames_makeNode rfl rfl

theorem frames_catchGuard : Frames v (List.map (Tree.framed v)) g.catchGuard g.catchGuard := by
  refine frames_ifCheck (frames_get fun s => ?_) (frames_pure rfl)
  refine .ite rfl (frames_advance.bind fun _ => ?_) (frames_fail _)
  exact (hg.expression false).bind fun guard => frames_pure rfl

theorem frames_catchClause : Frames v (Tree.framed v) g.catchClause g.catchClause := by
  refine frames_advance.bind fun opening => (frames_expect _ _).bind fun _ => ?_
  refine (frames_declaredName _).bind fun p => (frames_makeNode rfl rfl).bind fun name => ?_
  refine (frames_catchGuard hg).bind fun guard => (frames_expect _ _).bind fun _ => ?_
  exact (frames_block hg _).bind fun handler => frames_makeNode rfl (by simp)

theorem frames_finallyPart :
    Frames v (List.map (Tree.framed v)) g.finallyPart g.finallyPart := by
  refine frames_ifCheck (frames_advance.bind fun t => ?_) (frames_pure rfl)
  refine (frames_block hg _).bind fun body => ?_
  exact (frames_makeNode rfl rfl).bind fun _ => frames_pure rfl

theorem frames_tryStatement : Frames v (Tree.framed v) g.tryStatement g.tryStatement := by
  refine frames_advance.bind fun opening => (frames_block hg _).bind fun body => ?_
  refine (frames_itemsUntil (fun _ => rfl) (frames_catchClause hg) []).bind fun catches => ?_
  refine (frames_finallyPart hg).bind fun finals => .ite ?_ (frames_fail _) ?_
  · rw [← List.map_append, List.isEmpty_map]
  · exact frames_makeNode rfl (by simp)

/-! ## Expressions and labels -/

theorem frames_labelledStatement (name : String) {line line' : Nat} (pending : List NodeId)
    (h : line' = line + v.before) : Frames v (Tree.framed v)
      (g.labelledStatement name line pending) (g.labelledStatement name line' pending) := by
  subst h
  refine frames_get fun s => .ite rfl (frames_failAt _ rfl) ?_
  refine frames_advance.bind fun _ => frames_freshId.bind fun id => ?_
  refine (frames_makeNode rfl rfl).bind fun nameNode => frames_get fun s => ?_
  refine (frames_set rfl).bind fun _ => (hg.statement false).bind fun body => ?_
  refine Frames.bind (frames_modify fun _ => rfl) fun _ => frames_withJumps ?_
  rw [Tree.framed_node, Tree.framedAll_eq, framed_label]
  rfl

theorem frames_simpleStatement (pending : List NodeId) :
    Frames v (Tree.framed v) (g.simpleStatement pending) (g.simpleStatement pending) := by
  refine frames_get fun s => .ite rfl (frames_fail _) (frames_get fun u => ?_)
  refine (frames_expressionOf hg false).bind fun value => (frames_check _).bind fun colon => ?_
  have hlabel : Frames v (Tree.framed v)
      (g.labelledStatement s.current.shown s.current.line pending)
      (g.labelledStatement s.current.shown (s.current.line + v.before) pending) :=
    frames_labelledStatement hg _ pending rfl
  have hend : Frames v (Tree.framed v)
      (endStatement >>= fun _ => makeNode (.leaf .exprStatement s.current.line) [value])
      (endStatement >>= fun _ => makeNode (.leaf .exprStatement (s.current.line + v.before))
        [value.framed v]) := frames_endStatement.bind fun _ => frames_makeNode rfl rfl
  refine .ite (by rw [Tree.tag_framed]; rfl) (.ite rfl hlabel ?_) (.ite ?_ hend ?_)
  · exact (frames_modifyScope _).bind fun _ => hlabel
  · exact Tree.hasEffect_framed value
  · exact (frames_warn _ rfl).bind fun _ => hend

theorem frames_bareStatement (top : Bool) (pending : List NodeId) :
    Frames v (Tree.framed v) (g.bareStatement top pending) (g.bareStatement top pending) := by
  refine frames_get fun s => ?_
  simp only [State.current_framed, Token.tag_framed, Token.line_framed]
  split
  · exact frames_functionOf hg _
  · exact frames_block hg _
  · refine (frames_declarations hg false).bind fun vars => ?_
    exact frames_endStatement.bind fun _ => frames_pure rfl
  · exact frames_advance.bind fun _ => frames_makeNode rfl rfl
  · exact frames_ifStatement hg
  · exact frames_whileStatement hg pending
  · exact frames_doStatement hg pending
  · exact frames_forStatement hg pending
  · exact frames_jumpStatement
  · exact frames_jumpStatement
  · exact frames_returnStatement hg
  · exact frames_withStatement hg
  · exact frames_switchStatement hg
  · exact frames_throwStatement hg
  · exact frames_tryStatement hg
  · exact frames_simpleStatement hg pending

theorem frames_statementOf (top : Bool) :
    Frames v (Tree.framed v) (g.statementOf top) (g.statementOf top) := by
  refine frames_takeComments.bind fun comments => frames_get fun s => ?_
  refine Frames.bind (frames_modify fun _ => rfl) fun _ => ?_
  refine (frames_bareStatement hg top s.pendingLabels).bind fun t => frames_pure ?_
  exact (framed_withComments (.inl rfl) comments t).symm

end Grammar
end ScriptPress
