import ScriptPress.Proofs.Jumps.Tally

/-! # Functions within functions

The functions directly in a place, that is in no other function there, and trees in which every
function names the function right around it and those directly in it.
-/
namespace ScriptPress

namespace Tree

mutual

/-- The functions of a tree that are in no other function of it, in the order of the text. -/
def outerFunctions : Tree → List Tree
  | node id data children =>
    if data.tag == .kwFunction then [node id data children] else outerFunctionsAll children

def outerFunctionsAll : List Tree → List Tree
  | [] => []
  | t :: rest => outerFunctions t ++ outerFunctionsAll rest

end

/-- The identities of the functions directly in trees. -/
def directFunctions (ts : List Tree) : List NodeId := (outerFunctionsAll ts).map id

/-- In a tree that stands in a function, or in none, every function names the one right around it
and those directly in it. -/
inductive Nested : Option NodeId → Tree → Prop
  | function {around? : Option NodeId} {t : Tree} : t.tag = .kwFunction →
      t.data.properties.get? .enclosingFunction = around?.map .node →
      t.data.properties.get? .functions = some (.nodes (directFunctions t.children)) →
      (∀ c ∈ t.children, Nested (some t.id) c) → Nested around? t
  | other {around? : Option NodeId} {t : Tree} : t.tag ≠ .kwFunction →
      (∀ c ∈ t.children, Nested around? c) → Nested around? t

theorem outerFunctions_function {t : Tree} (h : t.tag = .kwFunction) : outerFunctions t = [t] := by
  obtain ⟨id, data, children⟩ := t
  exact if_pos (beq_iff_eq.mpr h)

theorem outerFunctions_other {t : Tree} (h : t.tag ≠ .kwFunction) :
    outerFunctions t = outerFunctionsAll t.children := by
  obtain ⟨id, data, children⟩ := t
  exact if_neg (mt beq_iff_eq.mp h)

theorem outerFunctionsAll_append (ts us : List Tree) :
    outerFunctionsAll (ts ++ us) = outerFunctionsAll ts ++ outerFunctionsAll us := by
  induction ts with
  | nil => rfl
  | cons t ts ih => rw [List.cons_append, outerFunctionsAll, ih, outerFunctionsAll, List.append_assoc]

theorem outerFunctionsAll_singleton (t : Tree) : outerFunctionsAll [t] = outerFunctions t := by
  rw [outerFunctionsAll, outerFunctionsAll, List.append_nil]

@[simp] theorem directFunctions_nil : directFunctions [] = [] := rfl

theorem directFunctions_append (ts us : List Tree) :
    directFunctions (ts ++ us) = directFunctions ts ++ directFunctions us := by
  rw [directFunctions, outerFunctionsAll_append, List.map_append, directFunctions, directFunctions]

theorem directFunctions_function {t : Tree} (h : t.tag = .kwFunction) :
    directFunctions [t] = [t.id] := by
  rw [directFunctions, outerFunctionsAll_singleton, outerFunctions_function h]
  rfl

theorem directFunctions_other {t : Tree} (h : t.tag ≠ .kwFunction) :
    directFunctions [t] = directFunctions t.children := by
  rw [directFunctions, outerFunctionsAll_singleton, outerFunctions_other h, directFunctions]

/-- What is put on a node beside its tag leaves the functions as they are. -/
theorem directFunctions_alike {id : NodeId} {n n' : Node} {children : List Tree} (h : n.Alike n') :
    directFunctions [.node id n' children] = directFunctions [.node id n children] := by
  by_cases htag : n.tag = .kwFunction
  · have htag' : n'.tag = .kwFunction := h.tag.trans htag
    rw [directFunctions_function (t := .node id n' children) htag',
      directFunctions_function (t := .node id n children) htag]
    rfl
  · have htag' : n'.tag ≠ .kwFunction := fun h' => htag (h.tag.symm.trans h')
    rw [directFunctions_other (t := .node id n' children) htag',
      directFunctions_other (t := .node id n children) htag]
    rfl

mutual

theorem mem_outerFunctions : ∀ (t : Tree), ∀ f ∈ outerFunctions t,
    f ∈ preorder t ∧ f.tag = .kwFunction
  | node id data children => by
    intro f hf
    by_cases h : (node id data children).tag = .kwFunction
    · rw [outerFunctions_function h] at hf
      obtain rfl := List.mem_singleton.mp hf
      exact ⟨preorder_eq _ ▸ List.mem_cons_self .., h⟩
    · rw [outerFunctions_other h] at hf
      rw [preorder]
      exact (mem_outerFunctionsAll children f hf).imp_left (List.mem_cons_of_mem _)

theorem mem_outerFunctionsAll : ∀ (ts : List Tree), ∀ f ∈ outerFunctionsAll ts,
    f ∈ preorderAll ts ∧ f.tag = .kwFunction
  | [] => by simp [outerFunctionsAll]
  | t :: rest => by
    intro f hf
    rw [outerFunctionsAll, List.mem_append] at hf
    rw [preorderAll, List.mem_append]
    rcases hf with hf | hf
    · exact (mem_outerFunctions t f hf).imp_left .inl
    · exact (mem_outerFunctionsAll rest f hf).imp_left .inr

end

theorem directFunctions_subset (ts : List Tree) : ∀ i ∈ directFunctions ts, i ∈ ids ts := by
  intro i hi
  obtain ⟨f, hf, rfl⟩ := List.mem_map.mp hi
  exact mem_ids (mem_outerFunctionsAll ts f hf).1

namespace Nested
variable {around? : Option NodeId} {id : NodeId} {n n' : Node} {t : Tree} {children : List Tree}

theorem node (h : n.tag ≠ .kwFunction) (hall : ∀ c ∈ children, Nested around? c) :
    Nested around? (.node id n children) := .other h hall

theorem inside (h : Nested around? t) (ht : t.tag ≠ .kwFunction) :
    ∀ c ∈ t.children, Nested around? c := by
  cases h with
  | function htag => exact absurd htag ht
  | other _ hall => exact hall

theorem alike (h : Nested around? (.node id n children)) (hn : n.Alike n') :
    Nested around? (.node id n' children) := by
  cases h with
  | function htag haround hfunctions hall =>
    exact .function (hn.tag.trans htag) (hn.enclosingFunction.trans haround)
      (hn.functions.trans hfunctions) hall
  | other htag hall => exact .other (fun h => htag (hn.tag.symm.trans h)) hall

end Nested
end Tree
end ScriptPress
