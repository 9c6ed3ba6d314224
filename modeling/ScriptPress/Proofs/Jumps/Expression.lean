import ScriptPress.Proofs.Jumps.Course

/-! # Jumps in expressions

Expressions jump nowhere; only the functions in them do, and these keep their jumps to themselves.
The readers for nested parts are assumed to keep to the course; each reader over them then does.
-/
namespace ScriptPress

/-- The tags of nodes that are no jumps, no switches, no clauses and no functions. -/
def Tag.isPlain (tag : Tag) : Bool :=
  ! [Tag.kwBreak, .kwContinue, .kwSwitch, .kwCase, .kwDefault, .kwFunction].contains tag

/-- The tags of plain nodes over operands; a name has none. -/
def Tag.isOperation (tag : Tag) : Bool := tag.isPlain && tag != .identifier

theorem Tag.isOperation_plain {tag : Tag} (h : tag.isOperation = true) : tag.isPlain = true :=
  (Bool.and_eq_true_iff.mp h).1

namespace Node

theorem quiet_of_plain {n : Node} (ht : n.tag.isPlain = true) (h : n.properties.entries = []) :
    n.Quiet := by
  refine quiet_of_entries h ⟨?_, ?_, ?_⟩ ?_ <;> rintro he <;> simp [he, Tag.isPlain] at ht

theorem quiet_leaf {tag : Tag} (ht : tag.isPlain = true) (line : Nat) : (leaf tag line).Quiet :=
  quiet_of_plain ht rfl

theorem quiet_identifier (name : String) (line : Nat) : (identifier name line).Quiet :=
  quiet_of_plain rfl rfl

theorem quiet_number (text : String) (line : Nat) : (number text line).Quiet :=
  (quiet_of_plain (n := ⟨.number, none, line, .number text, {}⟩) rfl rfl).mark (by simp)

theorem quiet_string (text : String) (line : Nat) : (string text line).Quiet :=
  quiet_of_plain rfl rfl

theorem quiet_regExp (text : String) (line : Nat) : (regExp text line).Quiet :=
  quiet_of_plain rfl rfl

theorem quiet_primary (datum : Tag) (line : Nat) : (primary datum line).Quiet :=
  quiet_of_plain rfl rfl

theorem quiet_unary (operator : Tag) (line : Nat) : (unary operator line).Quiet :=
  (quiet_of_plain (n := operation .unary (some operator) line) rfl rfl).mark (by simp)

theorem quiet_step {tag : Tag} (ht : tag.isPlain = true) (after : Bool) (line : Nat) :
    (step tag after line).Quiet :=
  ((quiet_leaf ht line).mark (by simp)).mark (by simp)

theorem quiet_binary {tag : Tag} (ht : tag.isPlain = true) (datum : Option Tag)
    (left right : Node) (line : Nat) : (binary tag datum left right line).Quiet :=
  (quiet_of_plain (n := operation tag datum line) ht rfl).mark (by simp)

theorem quiet_assign (operator : Option Tag) (target value : Node) (line : Nat) :
    (assign operator target value line).Quiet :=
  (quiet_of_plain (n := operation .assign operator line) rfl rfl).mark (by simp)

theorem quiet_call {tag : Tag} (ht : tag.isPlain = true) (callee : Node) (line : Nat) :
    (call tag callee line).Quiet :=
  ((quiet_leaf ht line).mark (by simp)).mark (by simp)

@[simp] theorem tag_mark (n : Node) (kind : PropertyKind) (holds : Bool) :
    (n.mark kind holds).tag = n.tag := by
  cases holds <;> rfl

end Node

/-- An expression: its jumps go nowhere outside, it is no clause of a switch, and when it is a name
there is nothing in it. -/
structure Operand (t : Tree) : Prop where
  enclosed : Enclosed t
  noClause : t.tag ≠ .kwCase ∧ t.tag ≠ .kwDefault
  name : t.tag = .identifier → t.children = []

theorem not_jump_of_plain {t : Tree} (ht : t.tag.isPlain = true) : t.isJump = false := by
  rw [Tree.isJump]
  cases htag : t.tag <;> simp_all [Tag.isPlain]

theorem not_clause_of_plain {tag : Tag} (ht : tag.isPlain = true) :
    tag ≠ .kwCase ∧ tag ≠ .kwDefault := by
  constructor <;> rintro rfl <;> simp [Tag.isPlain] at ht

theorem operand_node {id : NodeId} {data : Node} {cs : List Tree}
    (ht : data.tag.isOperation = true) (h : ∀ c ∈ cs, Operand c) : Operand (.node id data cs) := by
  obtain ⟨hplain, hname⟩ := Bool.and_eq_true_iff.mp ht
  refine ⟨enclosed_node (not_jump_of_plain hplain) fun c hc => (h c hc).enclosed,
    not_clause_of_plain hplain, fun he => ?_⟩
  simp [show data.tag = .identifier from he] at hname

theorem operand_leaf {id : NodeId} {data : Node} (ht : data.tag.isPlain = true) :
    Operand (.node id data []) :=
  ⟨enclosed_node (not_jump_of_plain ht) (by simp [Tree.children]), not_clause_of_plain ht, fun _ => rfl⟩

namespace Grammar
open State (Tame)

/-- Readers for nested parts that keep to the course. -/
structure Steers (g : Grammar) : Prop where
  statement : ∀ top s, Tame s → Ensures False (g.statement top) s fun t s' =>
    Took (Aimed s.env) [] s s' [t] ∧ s'.pendingLabels = []
  assignment : ∀ noIn, Counts Operand (g.assignment noIn)
  expression : ∀ noIn, Counts Operand (g.expression noIn)
  unary : Counts Operand g.unary
  member : ∀ allowCall, Counts Operand (g.member allowCall)

variable {g : Grammar} {α β : Type} {P P' : Tree → Prop} {opened : List NodeId} {s s₀ : State}
  {ts : List Tree}

/-- A node over expressions that were all read before it. -/
theorem makeNode_operand {data : Node} (h : Took Operand [] s₀ s ts) (hdata : data.Quiet)
    (ht : data.tag.isOperation = true) :
    Ensures False (makeNode data ts) s fun t s' => Took Operand [] s₀ s' [t] :=
  makeNode_counts h hdata fun _ => operand_node ht h.all

theorem makeNode_leaf {data : Node} (h : Took Operand [] s₀ s []) (hdata : data.Quiet)
    (ht : data.tag.isPlain = true) :
    Ensures False (makeNode data []) s fun t s' => Took Operand [] s₀ s' [t] :=
  makeNode_counts h hdata fun _ => operand_leaf ht

theorem counts_name (name : String) (line : Nat) :
    Counts Operand (makeNode (.identifier name line) []) :=
  counts_leaf (Node.quiet_identifier _ _) fun _ => operand_leaf rfl

/-! ## Lists -/

theorem itemsBetweenCommas_counts {item : Reading Tree} (hitem : Counts P item) :
    CountsAll P (g.itemsBetweenCommas item) := by
  intro s hs
  refine ensures_iterate (I := fun ts s' => Took P [] s s' ts) (fun items s₁ h₁ => ?_) _ (.refl hs)
  refine hitem.next (fun _ h => h) h₁ fun t s₂ _ h₂ => ?_
  refine (idle_accept .comma).next h₂ fun b s₃ h₃ => ?_
  split
  · exact ensures_pure h₃
  · exact ensures_pure h₃

/-- Items behind the first ones. -/
theorem itemsUntil_counts {ends : Token → Bool} {item : Reading Tree} (first : List Tree)
    (h : Took P opened s₀ s [])
    (hitem : ∀ s' ts, Took P opened s₀ s' ts →
      Ensures False item s' fun t s'' => Took P opened s₀ s'' (ts ++ [t])) :
    Ensures False (g.itemsUntil ends item first) s fun ts s' =>
      ∃ rest, ts = first ++ rest ∧ Took P opened s₀ s' rest := by
  refine ensures_iterate
    (I := fun ts s' => ∃ rest, ts = first ++ rest ∧ Took P opened s₀ s' rest)
    (fun items s₁ ⟨rest, hitems, h₁⟩ => ?_) _ ⟨[], by simp, h⟩
  refine ensures_get ?_
  split
  · exact ensures_pure ⟨rest, hitems, h₁⟩
  · refine (hitem s₁ rest h₁).bind fun t s₂ h₂ => ensures_pure ⟨rest ++ [t], ?_, h₂⟩
    rw [hitems, List.append_assoc]

/-! ## Literals -/

theorem arrayElement_counts (hg : Steers g) {elements : List Tree}
    (h : Took Operand [] s₀ s elements) :
    Ensures False (g.arrayElement elements) s (Turn.Leads (fun ts s' => Took Operand [] s₀ s' ts)
      fun ts s' => Took Operand [] s₀ s' ts) := by
  refine ensures_ifCheck (fun _ => ensures_pure h) fun _ => ?_
  refine ensures_ifCheck (fun _ => ?_) fun _ => ?_
  · refine idle_advance.next h fun t s₁ h₁ => ?_
    have hole : Counts Operand (makeNode (.leaf .empty t.line) []) :=
      counts_leaf (Node.quiet_leaf rfl _) fun _ => operand_leaf rfl
    exact hole.next (fun _ h => h) h₁ fun t s₂ _ h₂ => ensures_pure h₂
  refine (hg.assignment false).next (fun _ h => h) h fun t s₁ _ h₁ => ?_
  refine ensures_ifCheck (fun _ => ?_) fun _ => ?_
  · refine idle_advance.next h₁ fun t s₂ h₂ => ?_
    refine ensures_ifCheck (fun _ => ?_) fun _ => ensures_pure h₂
    exact (idle_warn _ _).next h₂ fun _ s₃ h₃ => ensures_pure h₃
  · exact ensures_ifCheck (fun _ => ensures_pure h₁) fun _ => ensures_fail

theorem arrayLiteral_counts (hg : Steers g) : Counts Operand g.arrayLiteral := by
  intro s hs
  refine idle_advance.next (.refl (P := Operand) hs) fun t s₁ h₁ => ?_
  refine (ensures_iterate (fun _ _ => arrayElement_counts hg) _ h₁).bind fun elements s₂ h₂ => ?_
  refine (idle_expect _ _).next h₂ fun _ s₃ h₃ => ?_
  exact makeNode_operand h₃ (Node.quiet_leaf rfl _) rfl

theorem propertyKey_counts : Counts Operand propertyKey := by
  intro s hs
  have hstart : Took Operand [] s s [] := .refl hs
  refine ensures_get ?_
  dsimp only
  split
  · refine idle_advance.next hstart fun t s₁ h₁ => ?_
    exact makeNode_leaf h₁ (Node.quiet_identifier _ _) rfl
  · refine idle_advance.next hstart fun t s₁ h₁ => ?_
    refine (idle_warn _ _).next h₁ fun _ s₂ h₂ => ?_
    exact makeNode_leaf h₂ (Node.quiet_identifier _ _) rfl
  · refine idle_advance.next hstart fun t s₁ h₁ => ?_
    exact makeNode_leaf h₁ (Node.quiet_string _ _) rfl
  · refine idle_advance.next hstart fun t s₁ h₁ => ?_
    exact makeNode_leaf h₁ (Node.quiet_number _ _) rfl
  · exact ensures_fail

theorem objectProperty_counts (hg : Steers g) {parts : List Tree}
    (h : Took Operand [] s₀ s parts) :
    Ensures False (g.objectProperty parts) s (Turn.Leads (fun ts s' => Took Operand [] s₀ s' ts)
      fun ts s' => Took Operand [] s₀ s' ts) := by
  refine ensures_ifCheck (fun _ => ensures_pure h) fun _ => ?_
  refine propertyKey_counts.next (fun _ h => h) h fun key s₁ _ h₁ => ?_
  refine (idle_expect _ _).next h₁ fun _ s₂ h₂ => ?_
  refine (hg.assignment false).next (fun _ h => h) h₂ fun value s₃ _ h₃ => ?_
  have hparts : Took Operand [] s₀ s₃ (parts ++ [key, value]) := h₃.of_eq (List.append_assoc ..)
  refine ensures_ifCheck (fun _ => ?_) fun _ => ?_
  · refine idle_advance.next hparts fun t s₄ h₄ => ?_
    refine ensures_ifCheck (fun _ => ?_) fun _ => ensures_pure h₄
    exact (idle_warn _ _).next h₄ fun _ s₅ h₅ => ensures_pure h₅
  · exact ensures_ifCheck (fun _ => ensures_pure hparts) fun _ => ensures_fail

theorem objectLiteral_counts (hg : Steers g) : Counts Operand g.objectLiteral := by
  intro s hs
  refine idle_advance.next (.refl (P := Operand) hs) fun t s₁ h₁ => ?_
  refine (ensures_iterate (fun _ _ => objectProperty_counts hg) _ h₁).bind fun parts s₂ h₂ => ?_
  refine (idle_expect _ _).next h₂ fun _ s₃ h₃ => ?_
  exact makeNode_operand h₃ (Node.quiet_leaf rfl _) rfl

/-! ## Operands -/

theorem arguments_counts (hg : Steers g) : CountsAll Operand g.arguments := by
  intro s hs
  refine idle_advance.next (.refl (P := Operand) hs) fun t s₁ h₁ => ?_
  have hclose : ∀ args s', Took Operand [] s s' args →
      Ensures False (expect .rightParen .parenAfterArguments >>= fun _ => pure args) s'
        fun args s' => Took Operand [] s s' args := fun args s' h' =>
    (idle_expect _ _).next h' fun _ s₃ h₃ => ensures_pure h₃
  refine ensures_ifCheck (fun _ => hclose [] s₁ h₁) fun _ => ?_
  exact (itemsBetweenCommas_counts (hg.assignment false)).next (fun _ h => h) h₁
    fun args s₂ h₂ => hclose args s₂ h₂

theorem idle_propertyName : Idle propertyName := preserves_propertyName

/-- An access leads from an operand to an operand. -/
theorem access_counts (hg : Steers g) {allowCall : Bool} {object : Tree}
    (h : Took Operand [] s₀ s [object]) :
    Ensures False (g.access allowCall object) s (Turn.Leads (fun t s' => Took Operand [] s₀ s' [t])
      fun t s' => Took Operand [] s₀ s' [t]) := by
  refine ensures_get ?_
  dsimp only
  split
  · refine idle_advance.next h fun t s₁ h₁ => ?_
    refine idle_propertyName.next h₁ fun name s₂ h₂ => ?_
    refine (counts_name name t.line).next (fun _ h => h) h₂ fun name s₃ _ h₃ => ?_
    exact (makeNode_operand h₃ (Node.quiet_leaf rfl _) rfl).bind
      fun t s₄ h₄ => ensures_pure h₄
  · refine idle_advance.next h fun t s₁ h₁ => ?_
    refine (hg.expression false).next (fun _ h => h) h₁ fun index s₂ _ h₂ => ?_
    refine (idle_expect _ _).next h₂ fun _ s₃ h₃ => ?_
    exact (makeNode_operand h₃ (Node.quiet_leaf rfl _) rfl).bind
      fun t s₄ h₄ => ensures_pure h₄
  · split
    · refine (arguments_counts hg).next (fun _ h => h) h fun args s₁ h₁ => ?_
      have hmake : ∀ s', Took Operand [] s₀ s' (object :: args) →
          Ensures False (makeNode (.call .call object.data s.current.line) (object :: args) >>=
            fun t => pure (Turn.again t)) s' (Turn.Leads (fun t s' => Took Operand [] s₀ s' [t])
              fun t s' => Took Operand [] s₀ s' [t]) := fun s' h' =>
        (makeNode_operand h' (Node.quiet_call rfl _ _)
          (by simp only [Node.call, Node.tag_mark]; rfl)).bind fun t s₄ h₄ => ensures_pure h₄
      split
      · exact idle_needActivation.next h₁ fun _ s₂ h₂ => hmake s₂ h₂
      · exact hmake s₁ h₁
    · exact ensures_pure h
  · exact ensures_pure h

/-! ## Blocks and functions -/

/-- A statement of a list, with no label in front of it. -/
theorem statement_counts (hg : Steers g) {top : Bool} {env : Env} (hs : Tame s)
    (henv : s.env = env) :
    Ensures False (g.statement top) s fun t s' => Took (Aimed env) [] s s' [t] := by
  subst henv
  exact (hg.statement top s hs).mono fun t s' h => h.1

theorem Took.env (h : Took P opened s₀ s ts) (hpending : s₀.pendingLabels = []) :
    s.env = s₀.env := by
  simp only [State.env, h.targets, h.labels, hpending, h.pending hpending]

theorem settled_env (hpending : s.pendingLabels = []) : s.env.settled = s.env := by
  simp only [State.env, Env.settled, hpending]

/-- A statement read after others inside a node. -/
theorem statement_next (hg : Steers g) {top : Bool} {env : Env} (henv : s₀.env = env)
    (hpending : s₀.pendingLabels = []) (h : Took (Aimed env) opened s₀ s ts) :
    Ensures False (g.statement top) s fun t s' => Took (Aimed env) opened s₀ s' (ts ++ [t]) :=
  (statement_counts hg h.tame ((h.env hpending).trans henv)).mono
    fun _ _ h' => h.and_then h' fun _ ht => ht

/-- Comments on a node change nothing else of it. -/
theorem withComments_alike {kind : PropertyKind} (hk : kind.isComments = true)
    (comments : List String) (id : NodeId) (data : Node) (children : List Tree) :
    ∃ data', withComments kind comments (.node id data children) = .node id data' children
      ∧ data.Alike data'
      ∧ ∀ env, Aimed env (.node id data children) → Aimed env (.node id data' children) := by
  rw [withComments]
  split
  · exact ⟨data, rfl, .refl data, fun _ h => h⟩
  · refine ⟨_, rfl, Node.alike_put hk comments, fun _ h => h.put ?_ ?_⟩ <;>
      rintro rfl <;> cases hk

/-- Every jump goes where it should, whatever labels stand in front of the tree. -/
def Apart (env : Env) (t : Tree) : Prop := ∀ env', env'.settled = env → Aimed env' t

theorem blockAfterBrace_counts (hg : Steers g) {top : Bool} {line : Nat} {construct : String}
    (hs : Tame s) (hpending : s.pendingLabels = []) :
    Ensures False (g.blockAfterBrace top line construct) s fun t s' =>
      Took (Apart s.env) [] s s' [t] := by
  have hstart : Took (Aimed s.env) [] s s [] := .refl hs
  refine ensures_freshId' ?_
  have hopening : Took (Aimed s.env) [] s.opening s.opening [] := .refl hstart.tame_opening
  refine (itemsUntil_counts [] hopening fun s' ts h => statement_next hg rfl hpending h).bind
    fun statements s₁ ⟨rest, hrest, h₁⟩ => ?_
  subst hrest
  refine idle_takeComments.next h₁ fun comments s₂ h₂ => ?_
  refine (idle_expect _ _).next h₂ fun _ s₃ h₃ => ensures_pure ?_
  obtain ⟨data, hnode, halike, haimed⟩ := withComments_alike (rfl : PropertyKind.trailingComments.isComments = true)
    comments ⟨s.nextId⟩ (.leaf .block line) statements
  rw [hnode]
  have hquiet : (Node.leaf .block line).Quiet := Node.quiet_leaf rfl line
  refine hstart.close_quiet h₃ (halike.quiet hquiet) fun env henv =>
    haimed _ (aimed_node rfl rfl ?_)
  rw [henv]
  exact h₃.all

theorem idle_parameters : Idle g.parameters := preserves_parameters

theorem idle_functionName (role : FunctionRole) : Idle (functionName role) :=
  preserves_functionName role

theorem get?_functionNode (data : FunctionData) (line : Nat) (enclosing? : Option NodeId)
    (inner : Scope) : (functionNode data line enclosing? inner).properties.get? .jumps = none := by
  cases enclosing? <;> rfl

/-- A function names the one around it and those read in its body. -/
theorem get?_functionScope (data : FunctionData) (line : Nat) (enclosing? : Option NodeId)
    (inner : Scope) :
    (functionNode data line enclosing? inner).properties.get? .enclosingFunction
        = enclosing?.map .node
      ∧ (functionNode data line enclosing? inner).properties.get? .functions
        = some (.nodes inner.functions) := by
  cases enclosing? <;> exact ⟨rfl, rfl⟩

theorem refs_functionNode (data : FunctionData) (line : Nat) (enclosing? : Option NodeId)
    (inner : Scope) :
    (functionNode data line enclosing? inner).refs = enclosing?.toList ++ inner.functions := by
  cases enclosing? <;> simp [functionNode, Node.refs, Node.function, Properties.put,
    Properties.putIf, Properties.putIn, PropertyValue.refs]

/-- The state inside the body of a function. -/
def State.inside (s : State) (id : NodeId) : State :=
  { s with scope := { function? := some id }, targets := [], labels := [], pendingLabels := [] }

/-- The state behind a function, whose body was read up to another state. -/
def State.outside (s s' : State) (id : NodeId) : State :=
  { s' with
    scope := { s.scope with functions := s.scope.functions ++ [id] }
    targets := s.targets, labels := s.labels, pendingLabels := s.pendingLabels }

/-- A function is a node of its own, with what is read in its body. -/
theorem function_closed {id : NodeId} (hid : id = ⟨s.nextId⟩) {body : Tree} {data : FunctionData}
    {line : Nat} {s' : State} (h : Took Operand [] s₀ s [])
    (hbody : Took (Aimed {}) [] (s.opening.inside id) s' [body]) :
    Took Operand [] s₀ (s.opening.outside s' id)
      [.node id (functionNode data line s.scope.function? s'.scope) [body]] := by
  subst hid
  have hinner : s'.scope.functions = Tree.directFunctions [body] := hbody.functions
  have hscope := get?_functionScope data line s.scope.function? s'.scope
  have hnode : Operand (.node ⟨s.nextId⟩ (functionNode data line s.scope.function? s'.scope)
      [body]) :=
    ⟨enclosed_function rfl hbody.all,
      by simp [Tree.tag, Tree.data, functionNode, Node.function],
      by simp [Tree.tag, Tree.data, functionNode, Node.function]⟩
  have hgoals : ∀ i ∈ ([] : List NodeId) ++ (s.opening.inside ⟨s.nextId⟩).goals, i ∈ s₀.goals := by
    simp [State.inside, State.goals]
  have htally : Tally ([⟨s.nextId⟩] ++ s₀.goals) ([⟨s.nextId⟩] ++ s₀.known)
      s.opening.ledger s'.ledger [body] := by
    refine hbody.tally.mono (fun i hi => List.mem_append_right _ (hgoals i hi)) fun i hi => ?_
    have : i = ⟨s.nextId⟩ := by simpa [State.inside, State.known, State.goals] using hi
    simp [this]
  have hnone : jumpsTo ⟨s.nextId⟩ s'.jumps = [] := by
    have hjumps : s'.jumps = s.jumps ++ Tree.jumps [body] := hbody.tally.jumps
    rw [hjumps, jumpsTo_append, jumpsTo_eq_nil fun j hj hji => ?_,
      jumpsTo_eq_nil fun j hj hji => ?_]
    · rfl
    · rcases hbody.tally.aims j hj with hj | hj
      · have : s.nextId + 1 ≤ j.1.index := (hbody.tally.fresh _ hj).1
        rw [hji] at this
        exact Nat.not_succ_le_self _ this
      · simp [State.inside, State.goals] at hj
    · have : j.1.index < s.nextId := h.tame.jumps j hj
      rw [hji] at this
      exact Nat.lt_irrefl _ this
  refine ⟨h.targets, h.labels, h.function?, h.pending, ?_, ?_, h.covers, ?_,
    by simpa using hnode⟩
  · have houter : s.scope.functions = s₀.scope.functions := by simpa using h.functions
    simp only [State.outside, State.opening, houter]
    rfl
  · rw [List.forall_mem_singleton, ← h.function?]
    refine .function rfl hscope.1 (hscope.2.trans ?_) hbody.nested
    rw [hinner]
    rfl
  · refine h.tally.node rfl htally h.covers goals_known rfl ?_ ?_ ?_
    · intro r hr
      rw [refs_functionNode, List.mem_append] at hr
      rcases hr with hr | hr
      · rw [h.function?] at hr
        exact Or.inr (Or.inr (List.mem_append_right s₀.goals hr))
      · rw [hinner] at hr
        exact Or.inr (Or.inl (Tree.directFunctions_subset _ r hr))
    · rw [get?_functionNode]
      exact (congrArg listed? hnone).symm
    · intro htag
      simp [Tree.tag, Tree.data, functionNode, Node.function] at htag

theorem functionOf_counts (hg : Steers g) (role : FunctionRole) :
    Counts Operand (g.functionOf role) := by
  intro s hs
  refine idle_advance.next (.refl (P := Operand) hs) fun t s₁ h₁ => ?_
  refine (idle_functionName role).next h₁ fun name s₂ h₂ => ?_
  refine (idle_expect _ _).next h₂ fun _ s₃ h₃ => ?_
  refine idle_parameters.next h₃ fun params s₄ h₄ => ?_
  refine (idle_expect _ _).next h₄ fun _ s₅ h₅ => ?_
  refine (idle_expect _ _).next h₅ fun brace s₆ h₆ => ?_
  refine ensures_freshId' (ensures_get ?_)
  have hinside : Tame (s₆.opening.inside ⟨s₆.nextId⟩) := by
    refine ⟨fun id hid => ?_, fun j hj => Nat.lt_succ_of_lt (h₆.tame.jumps j hj)⟩
    have : id = ⟨s₆.nextId⟩ := by simpa [State.inside, State.known, State.goals] using hid
    rw [this]
    exact Nat.lt_succ_self _
  have hbody := (blockAfterBrace_counts hg hinside rfl :
    Ensures False (g.blockAfterBrace true brace.line "function") _ _).mono fun _ _ h =>
      h.mono fun _ ht => ht (s₆.opening.inside ⟨s₆.nextId⟩).env rfl
  refine Ensures.bind (P := fun p s' => ∃ sb, Took (Aimed {}) [] (s₆.opening.inside ⟨s₆.nextId⟩) sb
      [p.1] ∧ p.2 = sb.scope ∧ s' = s₆.opening.outside sb ⟨s₆.nextId⟩) ?_ ?_
  · refine ensures_get (ensures_set (hbody.bind fun body sb hb => ?_))
    exact ensures_get (ensures_modify (ensures_pure ⟨sb, hb, rfl, rfl⟩))
  · rintro ⟨body, inner⟩ s' ⟨sb, hb, rfl, rfl⟩
    exact ensures_pure (function_closed rfl h₆ hb)

/-! ## Operands and operators -/

/-- What is read after a slash was read again, if it was one. -/
theorem rescanned {c : Prop} [Decidable c] {f : PUnit → Reading Tree} (hs : Tame s)
    (hf : ∀ s', Took Operand [] s s' [] →
      Ensures False (f ⟨⟩) s' fun t s'' => Took Operand [] s s'' [t]) :
    Ensures False (if c then rescan >>= f else f ⟨⟩) s fun t s' => Took Operand [] s s' [t] := by
  split
  · exact idle_rescan.next (.refl hs) fun _ s₁ h₁ => hf s₁ h₁
  · exact hf s (.refl hs)

theorem primary_counts (hg : Steers g) : Counts Operand g.primary := by
  intro s hs
  refine ensures_get (rescanned hs fun s₀ h₀ => ?_)
  refine ensures_get ?_
  dsimp only
  split
  · exact (arrayLiteral_counts hg s₀ h₀.tame).mono fun t s₁ h₁ => h₀.and_then h₁ fun _ h => h
  · exact (objectLiteral_counts hg s₀ h₀.tame).mono fun t s₁ h₁ => h₀.and_then h₁ fun _ h => h
  · refine idle_advance.next h₀ fun t s₁ h₁ => ?_
    refine (hg.expression false).next (fun _ h => h) h₁ fun inner s₂ _ h₂ => ?_
    exact (idle_expect _ _).next h₂ fun _ s₃ h₃ => ensures_pure h₃
  · refine idle_advance.next h₀ fun t s₁ h₁ => ?_
    refine (idle_warnOfKeyword _ _).next h₁ fun _ s₂ h₂ => ?_
    refine (idle_noteUse _).next h₂ fun _ s₃ h₃ => ?_
    exact makeNode_leaf h₃ (Node.quiet_identifier _ _) rfl
  · refine idle_advance.next h₀ fun t s₁ h₁ => ?_
    exact makeNode_leaf h₁ (Node.quiet_number _ _) rfl
  · refine idle_advance.next h₀ fun t s₁ h₁ => ?_
    exact makeNode_leaf h₁ (Node.quiet_string _ _) rfl
  · refine idle_advance.next h₀ fun t s₁ h₁ => ?_
    exact makeNode_leaf h₁ (Node.quiet_regExp _ _) rfl
  · refine idle_advance.next h₀ fun t s₁ h₁ => ?_
    split
    · have hnote : Idle (modifyScope ({ · with checksThis := true })) :=
        idle_modifyScope fun _ => ⟨rfl, rfl⟩
      refine hnote.next h₁ fun _ s₂ h₂ => ?_
      exact makeNode_leaf h₂ (Node.quiet_primary _ _) rfl
    · exact makeNode_leaf h₁ (Node.quiet_primary _ _) rfl
  · exact ensures_fail
  · exact ensures_unexpected

theorem memberOf_counts (hg : Steers g) (allowCall : Bool) : Counts Operand (g.memberOf allowCall) := by
  intro s hs
  have hstart : Took Operand [] s s [] := .refl hs
  have htail : ∀ object s', Took Operand [] s s' [object] →
      Ensures False (g.repeatTurns (g.access allowCall) object) s'
        fun t s'' => Took Operand [] s s'' [t] := fun object s' h =>
    ensures_iterate (I := fun t s'' => Took Operand [] s s'' [t])
      (fun _ _ h' => access_counts hg h') _ h
  refine ensures_get ?_
  dsimp only
  split
  · refine idle_advance.next hstart fun t s₁ h₁ => ?_
    refine (hg.member false).next (fun _ h => h) h₁ fun callee s₂ _ h₂ => ?_
    have hnew : ∀ args s', Took Operand [] s s' (callee :: args) →
        Ensures False (makeNode (.call .kwNew callee.data t.line) (callee :: args) >>=
          g.repeatTurns (g.access allowCall)) s' fun t s'' => Took Operand [] s s'' [t] :=
      fun args s' h' => (makeNode_operand h' (Node.quiet_call rfl _ _)
        (by simp only [Node.call, Node.tag_mark]; rfl)).bind htail
    refine ensures_ifCheck (fun _ => ?_) fun _ => hnew [] s₂ h₂
    exact (arguments_counts hg).next (fun _ h => h) h₂ fun args s₃ h₃ => hnew args s₃ h₃
  split
  · exact (functionOf_counts hg .expression).next (fun _ h => h) hstart
      fun object s₁ _ h₁ => htail object s₁ h₁
  · exact (primary_counts hg).next (fun _ h => h) hstart fun object s₁ _ h₁ => htail object s₁ h₁

theorem isOperation_step {t : Token} (h : isStep t = true) : t.tag.isOperation = true := by
  have htag : t.tag = .increment ∨ t.tag = .decrement := by simpa [isStep] using h
  rcases htag with htag | htag <;> rw [htag] <;> rfl

theorem steppedOperand_counts (hg : Steers g) : Counts Operand g.steppedOperand := by
  intro s hs
  refine (memberOf_counts hg true).next (fun _ h => h) (.refl (P := Operand) hs)
    fun operand s₁ _ h₁ => ?_
  refine ensures_get ?_
  dsimp only
  split
  · next hstep =>
    have hplain := isOperation_step (Bool.and_eq_true_iff.mp hstep).1
    split
    · refine (advance_still s₁).bind fun t s₂ ⟨ht, hv⟩ => ?_
      subst ht
      exact makeNode_operand (h₁.still hv) (Node.quiet_step (Tag.isOperation_plain hplain) _ _)
        (by simp only [Node.step, Node.tag_mark]; exact hplain)
    · exact ensures_fail
  · exact ensures_pure h₁

theorem unaryOf_counts (hg : Steers g) : Counts Operand g.unaryOf := by
  intro s hs
  refine ensures_get ?_
  dsimp only
  split
  · refine idle_advance.next (.refl (P := Operand) hs) fun t s₁ h₁ => ?_
    refine hg.unary.next (fun _ h => h) h₁ fun operand s₂ _ h₂ => ?_
    exact makeNode_operand h₂ (Node.quiet_unary _ _) (by simp only [Node.unary, Node.tag_mark]; rfl)
  · split
    · next hstep =>
      refine idle_advance.next (.refl (P := Operand) hs) fun t s₁ h₁ => ?_
      refine (memberOf_counts hg true).next (fun _ h => h) h₁ fun operand s₂ _ h₂ => ?_
      split
      · exact makeNode_operand h₂ (Node.quiet_step (Tag.isOperation_plain (isOperation_step hstep)) _ _)
          (by simp only [Node.step, Node.tag_mark]; exact isOperation_step hstep)
      · exact ensures_failAt
    · exact steppedOperand_counts hg s hs

theorem isOperation_binary {noIn : Bool} {t : Token} {tag : Tag} {datum : Option Tag}
    (h : binaryOperator? noIn t = some (tag, datum)) : tag.isOperation = true := by
  rw [binaryOperator?] at h
  split at h
  · cases h
    rfl
  · split at h
    · cases h
    · cases h
      rfl
  · next htag => cases h; rw [htag]; rfl
  · next htag => cases h; rw [htag]; rfl
  · next htag => cases h; rw [htag]; rfl
  · split at h
    · next hlevel =>
      cases h
      cases htag : t.tag <;> simp_all [Tag.binaryPrecedence?, Tag.isPlain, Tag.isOperation]
    · cases h

theorem binaryTurn_counts {noIn : Bool} {level : Nat} {operand : Reading Tree}
    (hoperand : Counts Operand operand) {left : Tree} (h : Took Operand [] s₀ s [left]) :
    Ensures False (binaryTurn noIn level operand left) s
      (Turn.Leads (fun t s' => Took Operand [] s₀ s' [t]) fun t s' => Took Operand [] s₀ s' [t]) := by
  refine ensures_get ?_
  split
  · next tag datum hop =>
    have hplain := isOperation_binary hop
    split
    · refine idle_advance.next h fun t s₁ h₁ => ?_
      refine hoperand.next (fun _ h => h) h₁ fun right s₂ _ h₂ => ?_
      exact (makeNode_operand h₂ (Node.quiet_binary (Tag.isOperation_plain hplain) _ _ _ _)
        (by simp only [Node.binary, Node.tag_mark]; exact hplain)).bind
        fun t s₃ h₃ => ensures_pure h₃
    · exact ensures_pure h
  · exact ensures_pure h

theorem binaryOf_counts (hg : Steers g) (noIn : Bool) (levels : Nat) :
    Counts Operand (g.binaryOf noIn levels) := by
  induction levels with
  | zero => exact unaryOf_counts hg
  | succ levels ih =>
    intro s hs
    refine ih.next (fun _ h => h) (.refl (P := Operand) hs) fun left s₁ _ h₁ => ?_
    exact ensures_iterate (I := fun t s' => Took Operand [] s s' [t])
      (fun _ _ h => binaryTurn_counts ih h) _ h₁

theorem conditionalOf_counts (hg : Steers g) (noIn : Bool) :
    Counts Operand (g.conditionalOf noIn) := by
  intro s hs
  refine (binaryOf_counts hg noIn _).next (fun _ h => h) (.refl (P := Operand) hs)
    fun condition s₁ _ h₁ => ?_
  refine ensures_ifCheck (fun _ => ?_) fun _ => ensures_pure h₁
  refine idle_advance.next h₁ fun t s₂ h₂ => ?_
  refine (hg.assignment false).next (fun _ h => h) h₂ fun yes s₃ _ h₃ => ?_
  refine (idle_expect _ _).next h₃ fun _ s₄ h₄ => ?_
  refine (hg.assignment noIn).next (fun _ h => h) h₄ fun no s₅ _ h₅ => ?_
  exact makeNode_operand h₅ (Node.quiet_leaf rfl _) rfl

theorem assignmentOf_counts (hg : Steers g) (noIn : Bool) :
    Counts Operand (g.assignmentOf noIn) := by
  intro s hs
  refine (conditionalOf_counts hg noIn).next (fun _ h => h) (.refl (P := Operand) hs)
    fun target s₁ _ h₁ => ?_
  refine ensures_ifCheck (fun _ => ?_) fun _ => ensures_pure h₁
  split
  · refine idle_advance.next h₁ fun t s₂ h₂ => ?_
    refine (hg.assignment noIn).next (fun _ h => h) h₂ fun value s₃ _ h₃ => ?_
    exact makeNode_operand h₃ (Node.quiet_assign _ _ _ _)
      (by simp only [Node.assign, Node.tag_mark]; rfl)
  · exact ensures_fail

theorem sequenceTurn_counts {assignment : Reading Tree} (ha : Counts Operand assignment)
    {left : Tree} (h : Took Operand [] s₀ s [left]) :
    Ensures False (sequenceTurn assignment left) s
      (Turn.Leads (fun t s' => Took Operand [] s₀ s' [t]) fun t s' => Took Operand [] s₀ s' [t]) := by
  refine ensures_ifCheck (fun _ => ?_) fun _ => ensures_pure h
  refine idle_advance.next h fun t s₁ h₁ => ?_
  refine ha.next (fun _ h => h) h₁ fun right s₂ _ h₂ => ?_
  exact (makeNode_operand h₂ (Node.quiet_leaf rfl _) rfl).bind fun t s₃ h₃ => ensures_pure h₃

theorem expressionOf_counts (hg : Steers g) (noIn : Bool) :
    Counts Operand (g.expressionOf noIn) := by
  intro s hs
  have ha := assignmentOf_counts hg noIn
  refine ha.next (fun _ h => h) (.refl (P := Operand) hs) fun first s₁ _ h₁ => ?_
  exact ensures_iterate (I := fun t s' => Took Operand [] s s' [t])
    (fun _ _ h => sequenceTurn_counts ha h) _ h₁

end Grammar
end ScriptPress
