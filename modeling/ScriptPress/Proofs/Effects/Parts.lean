import ScriptPress.Proofs.Scopes.Places
import ScriptPress.Tree.Precedence

/-! # The parts that are asked for an effect

Whether an expression is worth a statement is told by some of its parts. A sequence and a logical
operation pass the question on to their last operand, a conditional to both of its branches, and
everything else answers for itself. The other operands are not asked, whatever effects they have.
-/
namespace ScriptPress.Tree
variable {t c p : Tree}

/-- Whether a node is an effect: an assignment, a step, a call, a `new` or a `delete`. -/
def isEffect (t : Tree) : Bool :=
  match t.tag with
  | .assign | .call | .kwNew | .increment | .decrement => true
  | .unary => t.data.datum == some .delete
  | _ => false

/-- Whether there is an effect anywhere in a tree, those in the functions in it left out. -/
def acts (t : Tree) : Bool := (t.nodes .part).any (·.tree.isEffect)

/-- The operands that the question for an effect is passed on to. -/
def deciders (t : Tree) : List Tree :=
  match t.tag with
  | .comma | .or | .and => t.children.getLast?.toList
  | .question => t.children.tail
  | _ => []

/-- The operands that are not asked for an effect. -/
def bystanders (t : Tree) : List Tree :=
  match t.tag with
  | .comma | .or | .and => t.children.dropLast
  | .question => t.children.head?.toList
  | .kwFunction => []
  | _ => t.children

/-- The part answers for itself when the tree is asked for an effect. -/
inductive Asks : Tree → Tree → Prop
  | self {t : Tree} (hnone : t.deciders = []) (htag : t.tag ≠ .question) : Asks t t
  | operand {t c p : Tree} (hc : c ∈ t.deciders) (hp : Asks c p) : Asks t p

/-- The part is passed over when the tree is asked for an effect. -/
inductive Skips : Tree → Tree → Prop
  | here {t c : Tree} (hc : c ∈ t.bystanders) : Skips t c
  | operand {t c p : Tree} (hc : c ∈ t.deciders) (hp : Skips c p) : Skips t p

/-! ## Operands -/

/-- The operands of a tree are asked or passed over; what is in a function is no operand. -/
theorem mem_operands :
    c ∈ t.deciders ∨ c ∈ t.bystanders ↔ t.tag ≠ .kwFunction ∧ c ∈ t.children := by
  have hlast : t.children.getLast? = some c ∨ c ∈ t.children.dropLast ↔ c ∈ t.children := by
    rcases List.eq_nil_or_concat t.children with h | ⟨front, last, h⟩
    · simp [h]
    · simp [h, or_comm, eq_comm]
  have hbranches : c ∈ t.children.tail ∨ t.children.head? = some c ↔ c ∈ t.children := by
    cases t.children with
    | nil => simp
    | cons test branches => simp [or_comm, eq_comm]
  unfold deciders bystanders
  cases t.tag with
  | comma | or | and => simpa using hlast
  | question => simpa using hbranches
  | _ => simp

theorem mem_children_of_decider (h : c ∈ t.deciders) : c ∈ t.children :=
  (mem_operands.mp (Or.inl h)).2

/-- An effect answers for itself. -/
theorem answers_of_isEffect (h : t.isEffect = true) : t.deciders = [] ∧ t.tag ≠ .question := by
  unfold isEffect at h
  unfold deciders
  cases htag : t.tag <;> simp_all

/-! ## The answer -/

theorem lastHasEffect_eq (ts : List Tree) :
    lastHasEffect ts = if ts = [] then false else ts.getLast?.toList.all hasEffect := by
  induction ts with
  | nil => rfl
  | cons t ts ih =>
    cases ts with
    | nil => simp [lastHasEffect]
    | cons u us =>
      rw [lastHasEffect, ih, List.getLast?_cons_cons, if_neg (List.cons_ne_nil u us),
        if_neg (List.cons_ne_nil t (u :: us))]
      exact List.cons_ne_nil u us

theorem allHaveEffect_eq (ts : List Tree) : allHaveEffect ts = ts.all hasEffect := by
  induction ts with
  | nil => rfl
  | cons t ts ih => rw [allHaveEffect, ih, List.all_cons]

/-- The answer of a tree for itself, or that of the operands that it passes the question on to. -/
theorem hasEffect_eq (t : Tree) : t.hasEffect =
    if t.deciders = [] ∧ t.tag ≠ .question then t.isEffect || decide (t.tag = .kwFunction)
    else t.deciders.all hasEffect := by
  obtain ⟨id, ⟨tag, datum, line, payload, properties⟩, children⟩ := t
  rw [hasEffect.eq_def]
  simp only [deciders, isEffect, Tree.tag, Tree.data, Tree.children]
  cases tag with
  | comma | or | and =>
    rw [lastHasEffect_eq]
    by_cases hnil : children = [] <;> simp [hnil]
  | question => cases children <;> simp [allHaveEffect_eq]
  | _ => simp

/-- An expression is worth a statement when every part that is asked is an effect or a function. -/
theorem hasEffect_iff (t : Tree) :
    t.hasEffect = true ↔ ∀ p, Asks t p → p.isEffect = true ∨ p.tag = .kwFunction := by
  induction t using Tree.induction with
  | node id data children ih =>
    rw [hasEffect_eq]
    split
    · next hself =>
      rw [Bool.or_eq_true, decide_eq_true_eq]
      refine ⟨fun h p hp => ?_, fun h => h _ (.self hself.1 hself.2)⟩
      cases hp with
      | self => exact h
      | operand hc => simp [hself.1] at hc
    · next hpass =>
      rw [List.all_eq_true]
      constructor
      · intro h p hp
        cases hp with
        | self hnone htag => exact absurd ⟨hnone, htag⟩ hpass
        | operand hc hp => exact (ih _ (mem_children_of_decider hc)).mp (h _ hc) p hp
      · intro h c hc
        exact (ih c (mem_children_of_decider hc)).mpr fun p hp => h p (.operand hc hp)

/-- An expression is not worth a statement when some part that is asked is neither. -/
theorem exists_asked (h : t.hasEffect = false) :
    ∃ p, Asks t p ∧ p.isEffect = false ∧ p.tag ≠ .kwFunction := by
  have hnot : ¬∀ p, Asks t p → p.isEffect = true ∨ p.tag = .kwFunction := by
    rw [← hasEffect_iff, h]
    exact Bool.false_ne_true
  simp only [not_forall, not_or, Bool.not_eq_true] at hnot
  obtain ⟨p, hp, heffect, htag⟩ := hnot
  exact ⟨p, hp, heffect, htag⟩

/-! ## Effects anywhere -/

theorem nodes_any (standing : Standing) (t : Tree) :
    (t.nodes standing).any (·.tree.isEffect) = t.acts := by
  rw [acts, nodes_eq, nodes_eq, List.any_cons, List.any_cons]

theorem nodesUnder_any (parent : Tag) (index : Nat) (ts : List Tree) :
    (nodesUnder parent index ts).any (·.tree.isEffect) = ts.any acts := by
  induction ts generalizing index with
  | nil => rfl
  | cons t ts ih => rw [nodesUnder, List.any_append, nodes_any, ih, List.any_cons]

/-- The effects in a tree are the tree itself and those in its operands. -/
theorem acts_iff (t : Tree) : t.acts = true ↔
    t.isEffect = true ∨ t.tag ≠ .kwFunction ∧ ∃ c ∈ t.children, c.acts = true := by
  rw [acts, nodes_eq, List.any_cons, Bool.or_eq_true]
  refine or_congr_right ?_
  by_cases h : t.tag = .kwFunction
  · simp [h]
  · rw [if_neg (by simpa using h), inside, nodesUnder_any, List.any_eq_true]
    simp [h]

theorem acts_of_asked (h : Asks t p) (hp : p.isEffect = true) : t.acts = true := by
  induction h with
  | self => exact (acts_iff _).mpr (Or.inl hp)
  | operand hc _ ih =>
    obtain ⟨htag, hchild⟩ := mem_operands.mp (Or.inl hc)
    exact (acts_iff _).mpr (Or.inr ⟨htag, _, hchild, ih hp⟩)

theorem acts_of_skipped (h : Skips t p) (hp : p.acts = true) : t.acts = true := by
  induction h with
  | here hc =>
    obtain ⟨htag, hchild⟩ := mem_operands.mp (Or.inr hc)
    exact (acts_iff _).mpr (Or.inr ⟨htag, _, hchild, hp⟩)
  | operand hc _ ih =>
    obtain ⟨htag, hchild⟩ := mem_operands.mp (Or.inl hc)
    exact (acts_iff _).mpr (Or.inr ⟨htag, _, hchild, ih hp⟩)

/-- An effect in an expression is a part that is asked, or it is in a part that is passed over. -/
theorem acts_iff_parts (t : Tree) : t.acts = true ↔
    (∃ p, Asks t p ∧ p.isEffect = true) ∨ ∃ p, Skips t p ∧ p.acts = true := by
  constructor
  · induction t using Tree.induction with
    | node id data children ih =>
      intro h
      rcases (acts_iff _).mp h with hself | ⟨htag, c, hchild, hc⟩
      · obtain ⟨hnone, hquestion⟩ := answers_of_isEffect hself
        exact Or.inl ⟨_, .self hnone hquestion, hself⟩
      rcases mem_operands.mpr ⟨htag, hchild⟩ with hasked | hskipped
      · rcases ih c hchild hc with ⟨p, hp, heffect⟩ | ⟨p, hp, hacts⟩
        · exact Or.inl ⟨p, .operand hasked hp, heffect⟩
        · exact Or.inr ⟨p, .operand hasked hp, hacts⟩
      · exact Or.inr ⟨c, .here hskipped, hc⟩
  · rintro (⟨p, hp, heffect⟩ | ⟨p, hp, hacts⟩)
    · exact acts_of_asked hp heffect
    · exact acts_of_skipped hp hacts

/-! ## Statements without an effect -/

mutual

/-- The nodes of a tree with their trees below them, children before parents. -/
def postorder : Tree → List Tree
  | node id data children => postorderAll children ++ [node id data children]

def postorderAll : List Tree → List Tree
  | [] => []
  | t :: rest => postorder t ++ postorderAll rest

end

/-- An expression statement that is not worth it. -/
def isIdle (t : Tree) : Bool := t.tag == .exprStatement && t.children.any (!·.hasEffect)

/-- The lines of the idle statements in a tree, in the order in which the statements end. -/
def idleLines (t : Tree) : List Nat := (t.postorder.filter isIdle).map line

theorem mem_postorder {u : Tree} (t : Tree) : u ∈ t.postorder ↔ u ∈ t.preorder := by
  induction t using Tree.induction with
  | node id data children ih =>
    have hall : ∀ ts : List Tree, (∀ t ∈ ts, u ∈ t.postorder ↔ u ∈ t.preorder) →
        (u ∈ postorderAll ts ↔ u ∈ preorderAll ts) := by
      intro ts hts
      induction ts with
      | nil => simp [postorderAll, preorderAll]
      | cons t ts ihts =>
        rw [List.forall_mem_cons] at hts
        rw [postorderAll, preorderAll, List.mem_append, List.mem_append, hts.1, ihts hts.2]
    rw [postorder, preorder, List.mem_append, List.mem_singleton, hall children ih, List.mem_cons,
      or_comm]

end ScriptPress.Tree
