import ScriptPress.Proofs.Shape.Links

/-! # Links along a list

What the links of a store are after one of them is set, and what it means that they run along a
list of nodes.
-/
namespace ScriptPress
namespace Forest

variable {f g : Forest} {p q c b : NodeId} {link target stop : Option NodeId} {n : Node}
  {list before after : List NodeId}

/-! ## Nodes and links after a change -/

theorem read_modify {α : Type} (read : Slot → Option α) (change : Slot → Slot) :
    ((f.modify p change).slot? q).bind read
      = if q = p then (f.slot? q).bind fun s => read (change s) else (f.slot? q).bind read := by
  rw [slot?_modify]
  split
  · rw [Option.bind_map]
    rfl
  · rfl

theorem read_modify_same {α : Type} {read : Slot → Option α} {change : Slot → Slot}
    (h : ∀ s, read (change s) = read s) :
    ((f.modify p change).slot? q).bind read = (f.slot? q).bind read := by
  rw [read_modify]
  simp only [h, ite_self]

theorem node?_eq_bind : f.node? q = (f.slot? q).bind fun s => some s.data := by
  rw [node?, Option.map_eq_bind]
  rfl

theorem slot_of_lt (h : p.index < f.size) : ∃ s, f.slot? p = some s :=
  ⟨f.slots[p.index], Array.getElem?_eq_getElem h⟩

@[simp] theorem size_setFirst : (f.setFirst p link).size = f.size := size_modify ..
@[simp] theorem size_setLast : (f.setLast p link).size = f.size := size_modify ..
@[simp] theorem size_setNext : (f.setNext p link).size = f.size := size_modify ..

@[simp] theorem node?_setFirst : (f.setFirst p link).node? q = f.node? q := by
  rw [node?_eq_bind, node?_eq_bind]
  exact read_modify_same fun _ => rfl

@[simp] theorem node?_setLast : (f.setLast p link).node? q = f.node? q := by
  rw [node?_eq_bind, node?_eq_bind]
  exact read_modify_same fun _ => rfl

@[simp] theorem node?_setNext : (f.setNext p link).node? q = f.node? q := by
  rw [node?_eq_bind, node?_eq_bind]
  exact read_modify_same fun _ => rfl

@[simp] theorem first?_setLast : (f.setLast p link).first? q = f.first? q :=
  read_modify_same fun _ => rfl

@[simp] theorem first?_setNext : (f.setNext p link).first? q = f.first? q :=
  read_modify_same fun _ => rfl

@[simp] theorem last?_setFirst : (f.setFirst p link).last? q = f.last? q :=
  read_modify_same fun _ => rfl

@[simp] theorem last?_setNext : (f.setNext p link).last? q = f.last? q :=
  read_modify_same fun _ => rfl

@[simp] theorem next?_setFirst : (f.setFirst p link).next? q = f.next? q :=
  read_modify_same fun _ => rfl

@[simp] theorem next?_setLast : (f.setLast p link).next? q = f.next? q :=
  read_modify_same fun _ => rfl

theorem read_set {read : Slot → Option NodeId} {change : Slot → Slot} (hp : p.index < f.size)
    (h : ∀ s, read (change s) = link) : ((f.modify p change).slot? q).bind read
      = if q = p then link else (f.slot? q).bind read := by
  rw [read_modify]
  split
  · next hq =>
    obtain ⟨s, hs⟩ := slot_of_lt hp
    rw [hq, hs, Option.bind_some, h]
  · rfl

theorem first?_setFirst (hp : p.index < f.size) :
    (f.setFirst p link).first? q = if q = p then link else f.first? q :=
  read_set hp fun _ => rfl

theorem last?_setLast (hp : p.index < f.size) :
    (f.setLast p link).last? q = if q = p then link else f.last? q :=
  read_set hp fun _ => rfl

theorem next?_setNext (hp : p.index < f.size) :
    (f.setNext p link).next? q = if q = p then link else f.next? q :=
  read_set hp fun _ => rfl

/-! ## A new node -/

theorem slot?_alloc : (f.alloc n).2.slot? q
    = if q.index = f.size then some { data := n } else f.slot? q := by
  simp only [slot?, alloc, Array.getElem?_push]
  rfl

theorem read_alloc {read : Slot → Option NodeId} (h : read { data := n } = none) :
    ((f.alloc n).2.slot? q).bind read = (f.slot? q).bind read := by
  rw [slot?_alloc]
  split
  · next hq =>
    have hnone : f.slot? q = none := Array.getElem?_eq_none (Nat.le_of_eq hq.symm)
    rw [hnone, Option.bind_some, h]
    rfl
  · rfl

@[simp] theorem first?_alloc : (f.alloc n).2.first? q = f.first? q := read_alloc rfl
@[simp] theorem last?_alloc : (f.alloc n).2.last? q = f.last? q := read_alloc rfl
@[simp] theorem next?_alloc : (f.alloc n).2.next? q = f.next? q := read_alloc rfl

theorem node?_alloc :
    (f.alloc n).2.node? q = if q.index = f.size then some n else f.node? q := by
  rw [node?, slot?_alloc]
  split <;> rfl

@[simp] theorem size_alloc : (f.alloc n).2.size = f.size + 1 := Array.size_push ..

/-! ## Links along a list -/

/-- The links of a list: the next sibling of a node is the node behind it in the list, and that of
the last one is given. -/
def Linked (f : Forest) (stop : Option NodeId) : List NodeId → Prop
  | [] => True
  | c :: rest => f.next? c = rest.head?.or stop ∧ f.Linked stop rest

theorem linked_append : f.Linked stop (before ++ after)
    ↔ f.Linked (after.head?.or stop) before ∧ f.Linked stop after := by
  induction before with
  | nil => simp [Linked]
  | cons c rest ih =>
    rw [List.cons_append, Linked, Linked, ih, List.head?_append, Option.or_assoc, and_assoc]

theorem Linked.congr (h : f.Linked stop list) (hsame : ∀ c ∈ list, g.next? c = f.next? c) :
    g.Linked stop list := by
  induction list with
  | nil => trivial
  | cons c rest ih =>
    obtain ⟨hc, hrest⟩ := h
    constructor
    · rw [hsame c List.mem_cons_self, hc]
    · exact ih hrest fun d hd => hsame d (List.mem_cons_of_mem c hd)

/-- A list that leads somewhere else from its last node on. -/
theorem Linked.relink (h : f.Linked stop (before ++ [b]))
    (hsame : ∀ c ∈ before, g.next? c = f.next? c) (hb : g.next? b = target) :
    g.Linked target (before ++ [b]) := by
  rw [linked_append] at h ⊢
  constructor
  · exact h.1.congr hsame
  · exact ⟨by simpa using hb, trivial⟩

theorem Linked.chain (h : f.Linked none list) {fuel : Nat} (hfuel : list.length ≤ fuel) :
    f.chain fuel list.head? = list := by
  induction list generalizing fuel with
  | nil => cases fuel <;> rfl
  | cons c rest ih =>
    obtain ⟨hc, hrest⟩ := h
    rw [Option.or_none] at hc
    cases fuel with
    | zero => cases hfuel
    | succ fuel =>
      have hlength : rest.length ≤ fuel := Nat.le_of_succ_le_succ hfuel
      rw [List.head?_cons, Forest.chain, hc, ih hrest hlength]

/-! ## Setting the link behind some children -/

/-- A store with the link anew that the first children of a parent lead to: the next sibling of the
last of them, or the parent's first child where there are none before. -/
def lead (f : Forest) (parent : NodeId) (before : Option NodeId) (target : Option NodeId) : Forest :=
  match before with
  | some b => f.setNext b target
  | none => f.setFirst parent target

@[simp] theorem size_lead : (f.lead p link target).size = f.size := by
  cases link <;> simp [lead]

@[simp] theorem node?_lead : (f.lead p link target).node? q = f.node? q := by
  cases link <;> simp [lead]

@[simp] theorem last?_lead : (f.lead p link target).last? q = f.last? q := by
  cases link <;> simp [lead]

theorem first?_lead (hp : p.index < f.size) (hfirst : f.first? p = (before ++ after).head?) :
    (f.lead p before.getLast? target).first? q
      = if q = p then before.head?.or target else f.first? q := by
  rcases List.eq_nil_or_concat before with rfl | ⟨init, b, rfl⟩
  · simp [lead, first?_setFirst hp]
  · by_cases hq : q = p
    · subst hq
      simp [lead, hfirst]
    · simp [lead, hq]

theorem next?_lead (hin : ∀ c ∈ before, c.index < f.size) :
    (f.lead p before.getLast? target).next? q
      = if before.getLast? = some q then target else f.next? q := by
  rcases List.eq_nil_or_concat before with rfl | ⟨init, b, rfl⟩
  · simp [lead]
  · have hb : b.index < f.size := hin b (by simp)
    simp [lead, next?_setNext hb, eq_comm]

/-- A store with a parent's last child anew, on a condition. -/
def setLastIf (f : Forest) (anew : Bool) (parent : NodeId) (link : Option NodeId) : Forest :=
  if anew then f.setLast parent link else f

section
variable {anew : Bool}

@[simp] theorem size_setLastIf : (f.setLastIf anew p link).size = f.size := by
  cases anew <;> simp [setLastIf]

@[simp] theorem node?_setLastIf : (f.setLastIf anew p link).node? q = f.node? q := by
  cases anew <;> simp [setLastIf]

@[simp] theorem first?_setLastIf : (f.setLastIf anew p link).first? q = f.first? q := by
  cases anew <;> simp [setLastIf]

@[simp] theorem next?_setLastIf : (f.setLastIf anew p link).next? q = f.next? q := by
  cases anew <;> simp [setLastIf]

theorem last?_setLastIf (hp : p.index < f.size) : (f.setLastIf anew p link).last? q
    = if q = p then (if anew then link else f.last? p) else f.last? q := by
  cases anew with
  | true => simp [setLastIf, last?_setLast hp]
  | false =>
    by_cases hq : q = p
    · simp [setLastIf, hq]
    · simp [setLastIf, hq]

end

/-- What a list ends with, where nodes come in the place of a child and of those before it. -/
theorem getLast?_around (h : c ∉ after) :
    (if (before ++ c :: after).getLast? == some c then list.getLast?
      else (before ++ c :: after).getLast?) = (list ++ after).getLast? := by
  rcases List.eq_nil_or_concat after with rfl | ⟨init, d, rfl⟩
  · simp
  · have hne : d ≠ c := by
      rintro rfl
      exact h (by simp)
    have hlast : ∀ front : List NodeId, (front ++ init.concat d).getLast? = some d := by
      intro front
      rw [List.concat_eq_append, ← List.append_assoc, List.getLast?_concat]
    have hleft : before ++ c :: init.concat d = (before ++ [c]) ++ init.concat d := by simp
    rw [hleft, hlast, hlast, if_neg]
    simpa using hne

end Forest
end ScriptPress
