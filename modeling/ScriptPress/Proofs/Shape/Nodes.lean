import ScriptPress.Proofs.Shape.Formed

/-! # The nodes that the grammar makes

What every node made by the grammar is: its core, and that it has no comments yet. Most properties
of a node show in neither.
-/
namespace ScriptPress
namespace Properties
variable {p : Properties} {kind : PropertyKind} {value : PropertyValue}

theorem find?_putIn (k : PropertyKind) (entries : List (PropertyKind × PropertyValue)) :
    (putIn kind value entries).find? (·.1 == k)
      = if k = kind then some (kind, value) else entries.find? (·.1 == k) := by
  induction entries with
  | nil =>
    by_cases h : k = kind
    · simp [putIn, h]
    · simp [putIn, h, Ne.symm h]
  | cons entry rest ih =>
    rw [putIn]
    by_cases hentry : entry.1 = kind
    · rw [if_pos hentry]
      by_cases h : k = kind
      · simp [h]
      · simp [h, Ne.symm h, hentry]
    · rw [if_neg hentry, List.find?_cons, List.find?_cons, ih]
      by_cases h : k = kind
      · subst h
        have hne : (entry.1 == k) = false := by simpa using hentry
        rw [hne, if_pos rfl]
      · simp [h]

theorem get?_put (k : PropertyKind) :
    (p.put kind value).get? k = if k = kind then some value else p.get? k := by
  rw [get?, put, find?_putIn]
  split
  · rfl
  · rfl

theorem texts_put {k : PropertyKind} (h : k ≠ kind) : (p.put kind value).texts k = p.texts k := by
  rw [texts, get?_put, if_neg h, texts]

theorem flag_put {k : PropertyKind} (h : k ≠ kind) : (p.put kind value).flag k = p.flag k := by
  rw [flag, get?_put, if_neg h, flag]

end Properties

namespace Node
variable {n n' n'' : Node} {core : Core} {kind : PropertyKind} {value : PropertyValue}

/-- Two nodes with one core and the same comments. -/
structure Agrees (n n' : Node) : Prop where
  core : n'.core = n.core
  leading : n'.leading = n.leading
  trailing : n'.trailing = n.trailing

/-- The kinds of properties that show in the core or are comments. -/
def shown (kind : PropertyKind) : Bool :=
  kind == .postfixForm || kind == .comments || kind == .trailingComments

theorem Agrees.refl (n : Node) : n.Agrees n := ⟨rfl, rfl, rfl⟩

theorem Agrees.trans (h : n.Agrees n') (h' : n'.Agrees n'') : n.Agrees n'' :=
  ⟨h'.core.trans h.core, h'.leading.trans h.leading, h'.trailing.trans h.trailing⟩

theorem agrees_put (h : shown kind = false) : n.Agrees (n.put kind value) := by
  simp only [shown, Bool.or_eq_false_iff, beq_eq_false_iff_ne] at h
  obtain ⟨⟨hform, hcomments⟩, htrailing⟩ := h
  refine ⟨?_, ?_, ?_⟩
  · simp [Node.core, put, Properties.flag_put (Ne.symm hform)]
  · simp [leading, put, Properties.texts_put (Ne.symm hcomments)]
  · simp [trailing, put, Properties.texts_put (Ne.symm htrailing)]

theorem agrees_mark {holds : Bool} (h : shown kind = false) : n.Agrees (n.mark kind holds) := by
  cases holds with
  | false => exact Agrees.refl n
  | true => exact agrees_put h

theorem agrees_putIf {value? : Option PropertyValue} (h : shown kind = false) :
    n.Agrees { n with properties := n.properties.putIf kind value? } := by
  cases value? with
  | none => exact Agrees.refl n
  | some value => exact agrees_put h

theorem Plain.of_agrees (h : n.Plain core) (ha : n.Agrees n') : n'.Plain core :=
  ⟨ha.core.trans h.core, ha.leading.trans h.leading, ha.trailing.trans h.trailing⟩

theorem Plain.remarked (h : n.Plain core) : n.Remarked core :=
  ⟨h.core, by simp [h.leading], h.trailing⟩

theorem Plain.closed (h : n.Plain core) : n.Closed core :=
  ⟨h.core, by simp [h.leading], by simp [h.trailing]⟩

/-! ## Leaves -/

theorem plain_leaf (tag : Tag) (line : Nat) : (leaf tag line).Plain { tag := tag } :=
  ⟨rfl, rfl, rfl⟩

theorem plain_identifier (name : String) (line : Nat) :
    (identifier name line).Plain { tag := .identifier, payload := .text name } :=
  ⟨rfl, rfl, rfl⟩

theorem plain_number (text : String) (line : Nat) :
    (number text line).Plain { tag := .number, payload := .number text } :=
  ⟨rfl, rfl, rfl⟩

theorem plain_string (text : String) (line : Nat) :
    (string text line).Plain { tag := .string, payload := .text text } :=
  ⟨rfl, rfl, rfl⟩

theorem plain_regExp (text : String) (line : Nat) :
    (regExp text line).Plain { tag := .regExp, payload := .text text } :=
  ⟨rfl, rfl, rfl⟩

theorem plain_primary (datum : Tag) (line : Nat) :
    (primary datum line).Plain { tag := .primary, datum := some datum } :=
  ⟨rfl, rfl, rfl⟩

/-! ## Operations -/

theorem plain_operation (tag : Tag) (datum : Option Tag) (line : Nat) :
    (operation tag datum line).Plain { tag := tag, datum := datum } :=
  ⟨rfl, rfl, rfl⟩

theorem plain_unary (operator : Tag) (line : Nat) :
    (unary operator line).Plain { tag := .unary, datum := some operator } :=
  (plain_operation _ _ _).of_agrees (agrees_mark rfl)

theorem plain_step (tag : Tag) (after : Bool) (line : Nat) :
    (step tag after line).Plain { tag := tag, postfixForm := after } := by
  cases after with
  | false => exact ⟨rfl, rfl, rfl⟩
  | true => exact ⟨rfl, rfl, rfl⟩

theorem plain_binary (tag : Tag) (datum : Option Tag) (left right : Node) (line : Nat) :
    (binary tag datum left right line).Plain { tag := tag, datum := datum } :=
  (plain_operation _ _ _).of_agrees (agrees_mark rfl)

theorem plain_assign (operator : Option Tag) (target value : Node) (line : Nat) :
    (assign operator target value line).Plain { tag := .assign, datum := operator } :=
  (plain_operation _ _ _).of_agrees (agrees_mark rfl)

theorem plain_call (tag : Tag) (callee : Node) (line : Nat) :
    (call tag callee line).Plain { tag := tag } :=
  (plain_leaf tag line).of_agrees ((agrees_mark rfl).trans (agrees_mark rfl))

theorem plain_jump (tag : Tag) (label? : Option String) (target : NodeId) (line : Nat) :
    (jump tag label? target line).Plain { tag := tag } :=
  (plain_leaf tag line).of_agrees ((agrees_putIf rfl).trans (agrees_put rfl))

theorem plain_label (name : String) (line : Nat) : (label name line).Plain { tag := .label } :=
  (plain_leaf .label line).of_agrees (agrees_put rfl)

/-! ## Functions, switches and scripts -/

theorem plain_functionNode (data : FunctionData) (line : Nat) (enclosing? : Option NodeId)
    (inner : Grammar.Scope) : (Grammar.functionNode data line enclosing? inner).Plain
      { tag := .kwFunction, payload := .function { data with
          requiresActivation := inner.requiresActivation, checksThis := inner.checksThis } } := by
  cases enclosing? with
  | none => exact ⟨rfl, rfl, rfl⟩
  | some id => exact ⟨rfl, rfl, rfl⟩

theorem plain_switchNode (line : Nat) (clauses : List Tree) :
    (Grammar.switchNode line clauses).Plain { tag := .kwSwitch } :=
  (plain_leaf .kwSwitch line).of_agrees ((agrees_put rfl).trans (agrees_putIf rfl))

theorem plain_scriptNode (source : String) (line lastLine : Nat) (scope : Grammar.Scope) :
    (Grammar.scriptNode source line lastLine scope).Plain { tag := .script } :=
  ⟨rfl, rfl, rfl⟩

/-! ## Comments -/

theorem leading_put (cs : List String) : (n.put .comments (.texts cs)).leading = cs := by
  simp [leading, put, Properties.texts, Properties.get?_put]

theorem trailing_put (cs : List String) : (n.put .trailingComments (.texts cs)).trailing = cs := by
  simp [trailing, put, Properties.texts, Properties.get?_put]

end Node

namespace Grammar

/-- Comments put on a node in front of it. -/
theorem withComments_leading (comments : List String) (id : NodeId) (data : Node)
    (children : List Tree) (h : data.leading = []) :
    ∃ data', withComments .comments comments (.node id data children) = .node id data' children
      ∧ data'.core = data.core ∧ data'.leading = comments ∧ data'.trailing = data.trailing := by
  rw [withComments]
  split
  · next hc => exact ⟨data, rfl, rfl, by rw [h, List.isEmpty_iff.mp hc], rfl⟩
  · refine ⟨_, rfl, ?_, Node.leading_put comments, ?_⟩
    · simp [Node.core, Node.put, Properties.flag_put]
    · simp [Node.trailing, Node.put, Properties.texts_put]

/-- Comments put on a node at its end. -/
theorem withComments_trailing (comments : List String) (id : NodeId) (data : Node)
    (children : List Tree) (h : data.trailing = []) :
    ∃ data', withComments .trailingComments comments (.node id data children)
        = .node id data' children
      ∧ data'.core = data.core ∧ data'.leading = data.leading ∧ data'.trailing = comments := by
  rw [withComments]
  split
  · next hc => exact ⟨data, rfl, rfl, rfl, by rw [h, List.isEmpty_iff.mp hc]⟩
  · refine ⟨_, rfl, ?_, ?_, Node.trailing_put comments⟩
    · simp [Node.core, Node.put, Properties.flag_put]
    · simp [Node.leading, Node.put, Properties.texts_put]

end Grammar
end ScriptPress
