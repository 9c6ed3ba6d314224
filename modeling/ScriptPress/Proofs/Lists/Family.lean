import Mathlib.Data.List.Nodup
import ScriptPress.Tree.Forest

/-! # Families

A family is what a store of linked nodes stands for: nodes in the order they were made, each with
the list of its children. Edits of a store are edits of these lists. A node that is put into a list
must be in none; it may be any other node, one above its new parent too.
-/
namespace ScriptPress

/-- A change of a store. -/
inductive Edit where
  | alloc (n : Node)
  | clone (id : NodeId)
  | pushBack (parent child : NodeId)
  | pushFront (parent child : NodeId)
  | insertAfter (parent child sibling : NodeId)
  | remove (parent child : NodeId)
  | replace (parent child other : NodeId)
  deriving Repr, DecidableEq

/-- What an edit tells: the node it made, whether it found the child, or nothing. -/
inductive Edit.Answer where
  | made (id : NodeId)
  | found (isChild : Bool)
  | done
  deriving Repr, DecidableEq

namespace Forest

/-- An edit by the operation of its name. -/
def edit (f : Forest) : Edit → Edit.Answer × Forest
  | .alloc n => (.made (f.alloc n).1, (f.alloc n).2)
  | .clone id => (.made (f.clone id).1, (f.clone id).2)
  | .pushBack parent child => (.done, f.pushBack parent child)
  | .pushFront parent child => (.done, f.pushFront parent child)
  | .insertAfter parent child sibling => (.done, f.insertAfter parent child sibling)
  | .remove parent child =>
    match f.remove? parent child with
    | some f' => (.found true, f')
    | none => (.found false, f)
  | .replace parent child other =>
    match f.replace? parent child other with
    | some f' => (.found true, f')
    | none => (.found false, f)

/-- The answers to some edits, in order, and the store after them. -/
def edits (f : Forest) : List Edit → List Edit.Answer × Forest
  | [] => ([], f)
  | e :: rest => ((f.edit e).1 :: ((f.edit e).2.edits rest).1, ((f.edit e).2.edits rest).2)

end Forest

/-- Nodes in the order they were made, each with its children. -/
structure Family where
  members : List (Node × List NodeId) := []
  deriving Repr, DecidableEq

namespace Family

def node? (l : Family) (id : NodeId) : Option Node := (l.members[id.index]?).map (·.1)

def children (l : Family) (parent : NodeId) : List NodeId :=
  (l.members[parent.index]?).elim [] (·.2)

/-- Another list for a parent. -/
def put (l : Family) (parent : NodeId) (list : List NodeId) : Family :=
  ⟨l.members.modify parent.index fun m => (m.1, list)⟩

/-- A new node without children. -/
def add (l : Family) (n : Node) : Family := ⟨l.members ++ [(n, [])]⟩

/-- A list with a node right behind another one. -/
def behind (sibling child : NodeId) (list : List NodeId) : List NodeId :=
  list.flatMap fun c => if c = sibling then [c, child] else [c]

/-- An edit of the lists. Nothing is taken out or replaced that is no child. -/
def edit (l : Family) : Edit → Edit.Answer × Family
  | .alloc n => (.made ⟨l.members.length⟩, l.add n)
  | .clone id => (.made ⟨l.members.length⟩, l.add ((l.node? id).getD default))
  | .pushBack parent child => (.done, l.put parent (l.children parent ++ [child]))
  | .pushFront parent child => (.done, l.put parent (child :: l.children parent))
  | .insertAfter parent child sibling =>
    (.done, l.put parent (behind sibling child (l.children parent)))
  | .remove parent child =>
    if child ∈ l.children parent then
      (.found true, l.put parent ((l.children parent).erase child))
    else (.found false, l)
  | .replace parent child other =>
    if child ∈ l.children parent then
      (.found true, l.put parent ((l.children parent).replace child other))
    else (.found false, l)

def edits (l : Family) : List Edit → List Edit.Answer × Family
  | [] => ([], l)
  | e :: rest => ((l.edit e).1 :: ((l.edit e).2.edits rest).1, ((l.edit e).2.edits rest).2)

def Has (l : Family) (id : NodeId) : Prop := id.index < l.members.length

/-- A node of the family that is in no list. -/
def Free (l : Family) (id : NodeId) : Prop := l.Has id ∧ ∀ m ∈ l.members, id ∉ m.2

/-- What an edit asks for: nodes that there are, a free one where a node is put into a list, and a
sibling among the parent's children. -/
def Allows (l : Family) : Edit → Prop
  | .alloc _ => True
  | .clone id => l.Has id
  | .pushBack parent child | .pushFront parent child => l.Has parent ∧ l.Free child
  | .insertAfter parent child sibling => sibling ∈ l.children parent ∧ l.Free child
  | .remove parent child => l.Has parent ∧ l.Has child
  | .replace parent child other => l.Has parent ∧ l.Has child ∧ l.Free other

def AllowsAll (l : Family) : List Edit → Prop
  | [] => True
  | e :: rest => l.Allows e ∧ (l.edit e).2.AllowsAll rest

instance (l : Family) (id : NodeId) : Decidable (l.Has id) := by
  unfold Has
  infer_instance

instance (l : Family) (id : NodeId) : Decidable (l.Free id) := by
  unfold Free
  infer_instance

instance (l : Family) (e : Edit) : Decidable (l.Allows e) := by
  cases e <;> (unfold Allows; infer_instance)

instance decidableAllowsAll : (l : Family) → (es : List Edit) → Decidable (l.AllowsAll es)
  | _, [] => isTrue trivial
  | l, e :: rest =>
    have := decidableAllowsAll (l.edit e).2 rest
    inferInstanceAs (Decidable (l.Allows e ∧ (l.edit e).2.AllowsAll rest))

variable {l : Family} {p q c : NodeId} {list : List NodeId} {n : Node}

theorem index_ne (h : p ≠ q) : p.index ≠ q.index := by
  intro hindex
  apply h
  cases p
  cases q
  exact congrArg NodeId.mk hindex

theorem has_of_mem (h : c ∈ l.children p) : l.Has p := by
  rcases Nat.lt_or_ge p.index l.members.length with hin | hout
  · exact hin
  · have hnone : l.members[p.index]? = none := List.getElem?_eq_none hout
    simp [children, hnone] at h

theorem mem_children (h : l.Free c) : c ∉ l.children p := by
  intro hc
  obtain ⟨-, hfree⟩ := h
  have hp : p.index < l.members.length := has_of_mem hc
  simp only [children, List.getElem?_eq_getElem hp, Option.elim_some] at hc
  exact hfree _ (List.getElem_mem hp) hc

theorem free_iff : l.Free c ↔ l.Has c ∧ ∀ p, c ∉ l.children p := by
  constructor
  · intro h
    exact ⟨h.1, fun p => mem_children h⟩
  · intro h
    refine ⟨h.1, fun m hm hc => ?_⟩
    obtain ⟨i, hi, rfl⟩ := List.getElem_of_mem hm
    apply h.2 ⟨i⟩
    simpa [children, List.getElem?_eq_getElem hi] using hc

/-! ## Members and lists after an edit -/

@[simp] theorem length_put : (l.put p list).members.length = l.members.length :=
  List.length_modify ..

@[simp] theorem has_put : (l.put p list).Has q ↔ l.Has q := by
  simp [Has]

@[simp] theorem node?_put : (l.put p list).node? q = l.node? q := by
  simp only [node?, put, List.getElem?_modify]
  by_cases h : p.index = q.index <;> simp [h, Function.comp_def]

theorem children_put (hp : l.Has p) :
    (l.put p list).children q = if q = p then list else l.children q := by
  simp only [children, put, List.getElem?_modify]
  by_cases h : q = p
  · subst h
    simp [List.getElem?_eq_getElem hp]
  · simp [h, index_ne (Ne.symm h)]

@[simp] theorem length_add : (l.add n).members.length = l.members.length + 1 := by
  simp [add]

@[simp] theorem children_add : (l.add n).children q = l.children q := by
  simp only [children, add]
  by_cases h : q.index < l.members.length
  · rw [List.getElem?_append_left h]
  · have hle : l.members.length ≤ q.index := Nat.le_of_not_lt h
    rw [List.getElem?_append_right hle, List.getElem?_eq_none hle]
    cases q.index - l.members.length <;> rfl

theorem node?_add : (l.add n).node? q
    = if q.index = l.members.length then some n else l.node? q := by
  simp only [node?, add]
  by_cases h : q.index < l.members.length
  · rw [List.getElem?_append_left h, if_neg (Nat.ne_of_lt h)]
  · have hle : l.members.length ≤ q.index := Nat.le_of_not_lt h
    rw [List.getElem?_append_right hle, List.getElem?_eq_none hle]
    split
    · next heq => simp [heq]
    · next hne =>
      obtain ⟨k, hk⟩ : ∃ k, q.index - l.members.length = k + 1 :=
        ⟨q.index - l.members.length - 1, by omega⟩
      rw [hk]
      rfl

/-! ## Lists that share nothing -/

/-- No node is in a list twice or in two lists, and the lists are lists of nodes of the family. -/
structure Sound (l : Family) : Prop where
  nodup : ∀ p, (l.children p).Nodup
  apart : ∀ p q c, c ∈ l.children p → c ∈ l.children q → p = q
  inside : ∀ p c, c ∈ l.children p → l.Has c

theorem sound_empty : Sound {} := by
  have hnone : ∀ p, children {} p = [] := fun _ => rfl
  constructor
  · intro p
    rw [hnone]
    exact List.nodup_nil
  · intro p q c hc
    simp [hnone] at hc
  · intro p c hc
    simp [hnone] at hc

theorem Sound.add (h : l.Sound) (n : Node) : (l.add n).Sound := by
  constructor
  · intro p
    rw [children_add]
    exact h.nodup p
  · intro p q c hp hq
    rw [children_add] at hp hq
    exact h.apart p q c hp hq
  · intro p c hc
    rw [children_add] at hc
    have hin : c.index < l.members.length := h.inside p c hc
    rw [Has, length_add]
    omega

/-- A list may be changed to any list of its own nodes and free ones. -/
theorem Sound.put (h : l.Sound) (hp : l.Has p) (hnodup : list.Nodup)
    (hnew : ∀ c ∈ list, c ∈ l.children p ∨ l.Free c) : (l.put p list).Sound := by
  have hother : ∀ q c, q ≠ p → c ∈ l.children q → c ∉ list := by
    intro q c hq hc hlist
    rcases hnew c hlist with hold | hfree
    · exact hq (h.apart q p c hc hold)
    · exact mem_children hfree hc
  constructor
  · intro q
    rw [children_put hp]
    split
    · exact hnodup
    · exact h.nodup q
  · intro q r c hq hr
    rw [children_put hp] at hq hr
    split at hq <;> split at hr
    · next hqp hrp => exact hqp.trans hrp.symm
    · next hqp hrp => exact absurd hq (hother r c hrp hr)
    · next hqp hrp => exact absurd hr (hother q c hqp hq)
    · exact h.apart q r c hq hr
  · intro q c hc
    rw [children_put hp] at hc
    rw [has_put]
    split at hc
    · rcases hnew c hc with hold | hfree
      · exact h.inside p c hold
      · exact hfree.1
    · exact h.inside q c hc

/-! ## Lists around a child -/

variable {before after : List NodeId} {sibling child other : NodeId}

/-- A child of a list without repetitions, with the children before it and after it. -/
theorem Sound.split (h : l.Sound) (hc : c ∈ l.children p) :
    ∃ before after, l.children p = before ++ c :: after ∧ c ∉ before ∧ c ∉ after := by
  obtain ⟨before, after, hsplit⟩ := List.append_of_mem hc
  have hnodup := h.nodup p
  rw [hsplit, List.nodup_middle, List.nodup_cons, List.mem_append, not_or] at hnodup
  exact ⟨before, after, hsplit, hnodup.1.1, hnodup.1.2⟩

theorem behind_eq_self (h : sibling ∉ list) : behind sibling child list = list := by
  induction list with
  | nil => rfl
  | cons c rest ih =>
    rw [List.mem_cons, not_or] at h
    have hrest : behind sibling child rest = rest := ih h.2
    rw [behind] at hrest ⊢
    rw [List.flatMap_cons, hrest, if_neg (Ne.symm h.1)]
    rfl

theorem behind_append (hbefore : sibling ∉ before) (hafter : sibling ∉ after) :
    behind sibling child (before ++ sibling :: after) = before ++ sibling :: child :: after := by
  have hfront : behind sibling child before = before := behind_eq_self hbefore
  have hback : behind sibling child after = after := behind_eq_self hafter
  rw [behind] at hfront hback ⊢
  rw [List.flatMap_append, List.flatMap_cons, hfront, hback, if_pos rfl]
  rfl

theorem erase_around (h : c ∉ before) : (before ++ c :: after).erase c = before ++ after := by
  rw [List.erase_append_right _ h, List.erase_cons_head]

theorem replace_around (h : c ∉ before) :
    (before ++ c :: after).replace c other = before ++ other :: after := by
  rw [List.replace_append_right h, List.replace_cons_self]

/-- A list stays without repetitions, and of its own nodes and one more, where that is added. -/
theorem Sound.insert (h : l.Sound) (hp : l.Has p) (hc : l.Free c)
    (hperm : list.Perm (c :: l.children p)) : (l.put p list).Sound := by
  apply h.put hp
  · rw [hperm.nodup_iff, List.nodup_cons]
    exact ⟨mem_children hc, h.nodup p⟩
  · intro x hx
    rcases List.mem_cons.mp (hperm.mem_iff.mp hx) with rfl | hold
    · exact Or.inr hc
    · exact Or.inl hold

/-- An edit that is allowed leaves lists that share nothing. -/
theorem Sound.edit (h : l.Sound) {e : Edit} (he : l.Allows e) : (l.edit e).2.Sound := by
  cases e with
  | alloc n => exact h.add n
  | clone id => exact h.add _
  | pushBack p c =>
    obtain ⟨hp, hc⟩ := he
    exact h.insert hp hc (List.perm_append_singleton c _)
  | pushFront p c =>
    obtain ⟨hp, hc⟩ := he
    exact h.insert hp hc (List.Perm.refl _)
  | insertAfter p c s =>
    obtain ⟨hs, hc⟩ := he
    obtain ⟨before, after, hsplit, hbefore, hafter⟩ := h.split hs
    apply h.insert (has_of_mem hs) hc
    rw [hsplit, behind_append hbefore hafter]
    calc before ++ s :: c :: after
      _ = (before ++ [s]) ++ c :: after := by simp
      List.Perm _ (c :: ((before ++ [s]) ++ after)) := List.perm_middle
      _ = c :: (before ++ s :: after) := by simp
  | remove p c =>
    simp only [Family.edit]
    split
    · apply h.put he.1 ((h.nodup p).erase c)
      intro x hx
      exact Or.inl (List.mem_of_mem_erase hx)
    · exact h
  | replace p c o =>
    obtain ⟨hp, -, ho⟩ := he
    simp only [Family.edit]
    split
    · next hc =>
      obtain ⟨before, after, hsplit, hbefore, -⟩ := h.split hc
      have hrest : (before ++ c :: after).Nodup := hsplit ▸ h.nodup p
      have hout : o ∉ l.children p := mem_children ho
      rw [hsplit] at hout ⊢
      rw [replace_around hbefore]
      rw [List.nodup_middle, List.nodup_cons] at hrest
      apply h.put hp
      · rw [List.nodup_middle, List.nodup_cons]
        constructor
        · intro hin
          apply hout
          simp only [List.mem_append, List.mem_cons] at hin ⊢
          tauto
        · exact hrest.2
      · intro x hx
        rw [hsplit]
        simp only [List.mem_append, List.mem_cons] at hx ⊢
        rcases hx with hx | rfl | hx
        · exact Or.inl (Or.inl hx)
        · exact Or.inr ho
        · exact Or.inl (Or.inr (Or.inr hx))
    · exact h

end Family
end ScriptPress
