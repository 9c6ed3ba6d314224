import Mathlib.Data.List.Nodup
import Mathlib.Data.List.Perm.Subperm
import ScriptPress.Proofs.Jumps.Tally
import ScriptPress.Tree.Forest

/-! # Trees in linked stores

A tree laid out in a store of linked nodes, each child added behind the ones before it. Where the
nodes have identities of their own, the links are those that the tree says, and following them
gives the tree back.
-/
namespace ScriptPress
open Tree (ids ids_append ids_singleton)

theorem Tree.ids_cons (t : Tree) (rest : List Tree) : ids (t :: rest) = ids [t] ++ ids rest :=
  ids_append [t] rest

theorem Tree.mem_ids_cons {t : Tree} {rest : List Tree} {i : NodeId} :
    i ∈ ids (t :: rest) ↔ i ∈ ids [t] ∨ i ∈ ids rest := by
  rw [ids_cons, List.mem_append]

namespace Forest
open Tree (ids_cons mem_ids_cons)

/-! ## Stores that hold a tree -/

mutual

/-- A store holds a tree: each node has its data, and links to its first child, its last child and
its next sibling. The root's next sibling is given. -/
def Holds (f : Forest) (next : Option NodeId) : Tree → Prop
  | .node id data children =>
    f.slot? id = some
        { data, first := children.head?.map Tree.id, last := children.getLast?.map Tree.id, next }
      ∧ HoldsAll f none children

/-- A store holds the trees of a list, with the sibling behind the list given. -/
def HoldsAll (f : Forest) (next : Option NodeId) : List Tree → Prop
  | [] => True
  | t :: rest => Holds f ((rest.head?.map Tree.id).or next) t ∧ HoldsAll f next rest

end

/-- A node of a store that has no links yet. -/
def Blank (f : Forest) (id : NodeId) : Prop := ∃ data, f.slot? id = some { data }

section
variable {f g : Forest} {next : Option NodeId}

theorem slot?_modify (id : NodeId) (change : Slot → Slot) (i : NodeId) :
    (f.modify id change).slot? i = if i = id then (f.slot? i).map change else f.slot? i := by
  rw [slot?, modify, Array.getElem?_modify]
  by_cases h : i = id
  · subst h
    rw [if_pos rfl, if_pos rfl]
    rfl
  · have hne : id.index ≠ i.index := fun he => h (by cases i; cases id; simpa using he.symm)
    rw [if_neg hne, if_neg h]
    rfl

theorem size_modify (id : NodeId) (change : Slot → Slot) : (f.modify id change).size = f.size :=
  Array.size_modify

theorem holds_slot {t : Tree} : Holds f next t ↔ f.slot? t.id = some
      { data := t.data, first := t.children.head?.map Tree.id
        last := t.children.getLast?.map Tree.id, next }
    ∧ HoldsAll f none t.children := by
  cases t
  exact Iff.rfl

mutual

theorem Holds.congr {next : Option NodeId} {t : Tree} (h : Holds f next t)
    (hsame : ∀ i ∈ ids [t], g.slot? i = f.slot? i) : Holds g next t := by
  cases t with
  | node id data children =>
    obtain ⟨hslot, hchildren⟩ := h
    rw [ids_singleton] at hsame
    refine ⟨?_, hchildren.congr fun i hi => hsame i (List.mem_cons_of_mem _ hi)⟩
    rw [hsame id (List.mem_cons_self ..), hslot]

theorem HoldsAll.congr {next : Option NodeId} {ts : List Tree} (h : HoldsAll f next ts)
    (hsame : ∀ i ∈ ids ts, g.slot? i = f.slot? i) : HoldsAll g next ts := by
  cases ts with
  | nil => trivial
  | cons t rest =>
    obtain ⟨hfirst, hrest⟩ := h
    exact ⟨hfirst.congr fun i hi => hsame i (mem_ids_cons.mpr (Or.inl hi)),
      hrest.congr fun i hi => hsame i (mem_ids_cons.mpr (Or.inr hi))⟩

end

theorem holdsAll_append {ts us : List Tree} : HoldsAll f next (ts ++ us)
    ↔ HoldsAll f ((us.head?.map Tree.id).or next) ts ∧ HoldsAll f next us := by
  induction ts with
  | nil => simp [HoldsAll]
  | cons t rest ih =>
    rw [List.cons_append, HoldsAll, HoldsAll, ih, List.head?_append, and_assoc]
    cases rest with
    | nil => simp
    | cons u rest => simp

end

/-! ## Laying out a tree -/

mutual

/-- Lays out a tree whose nodes the store has room for. -/
def plant : Tree → Forest → Forest
  | .node id data children, f => plantAll id children (f.mapNode id fun _ => data)

/-- Lays out trees as further children of a node. -/
def plantAll (parent : NodeId) : List Tree → Forest → Forest
  | [], f => f
  | t :: rest, f => plantAll parent rest ((plant t f).pushBack parent t.id)

end

/-- The slot of a node by what the tree says. -/
def slotOf (data : Node) (children : List Tree) (next : Option NodeId) : Slot :=
  { data, first := children.head?.map Tree.id, last := children.getLast?.map Tree.id, next }

section
variable {f : Forest} {parent : NodeId} {data : Node} {next : Option NodeId}

/-- Adding a child links it behind the last one, and leaves all other nodes as they are. -/
theorem holds_pushBack {before : List Tree} {t : Tree}
    (hslot : f.slot? parent = some (slotOf data before next)) (hbefore : HoldsAll f none before)
    (ht : Holds f none t) (hnodup : (parent :: ids (before ++ [t])).Nodup) :
    (f.pushBack parent t.id).slot? parent = some (slotOf data (before ++ [t]) next)
      ∧ HoldsAll (f.pushBack parent t.id) none (before ++ [t])
      ∧ ∀ i, i ≠ parent → i ∉ ids before → (f.pushBack parent t.id).slot? i = f.slot? i := by
  obtain ⟨hparent, hnodup⟩ := List.nodup_cons.mp hnodup
  rw [ids_append] at hparent hnodup
  obtain ⟨hnodup, -, hdisjoint⟩ := List.nodup_append.mp hnodup
  have hne : ∀ i ∈ ids before ++ ids [t], i ≠ parent := fun i hi h => hparent (h ▸ hi)
  have hlast : f.last? parent = before.getLast?.map Tree.id := by simp [last?, hslot, slotOf]
  rcases List.eq_nil_or_concat before with rfl | ⟨init, last, rfl⟩
  · have hslots : ∀ i, (f.pushBack parent t.id).slot? i = if i = parent
        then (f.slot? i).map fun s => { s with first := some t.id, last := some t.id }
        else f.slot? i := by
      intro i
      simp only [Forest.pushBack, hlast, List.getLast?_nil, Option.map_none, setLast, setFirst,
        slot?_modify]
      split <;> simp [Function.comp_def]
    refine ⟨?_, ⟨ht.congr fun i hi => ?_, trivial⟩, fun i hi _ => by rw [hslots, if_neg hi]⟩
    · rw [hslots, if_pos rfl, hslot]
      rfl
    · rw [hslots, if_neg (hne i (by simp [hi]))]
  · rw [List.concat_eq_append] at *
    have hlastId : last.id ∈ ids (init ++ [last]) := by simp [ids_append, ids_singleton]
    have hslots : ∀ i, (f.pushBack parent t.id).slot? i
        = if i = parent then (f.slot? i).map fun s => { s with last := some t.id }
          else if i = last.id then (f.slot? i).map fun s => { s with next := some t.id }
          else f.slot? i := by
      intro i
      simp only [Forest.pushBack, hlast, List.getLast?_concat, Option.map_some, setLast, setNext,
        slot?_modify]
      by_cases hi : i = parent
      · subst hi
        rw [if_pos rfl, if_pos rfl, if_neg fun h => hne _ (List.mem_append_left _ hlastId) h.symm]
      · rw [if_neg hi, if_neg hi]
    rw [ids_append, ids_singleton] at hnodup
    obtain ⟨-, htail, hfront⟩ := List.nodup_append.mp hnodup
    have hbelow := (List.nodup_cons.mp htail).1
    obtain ⟨hinit, hfinal, -⟩ := holdsAll_append.mp hbefore
    have hkeep : ∀ i, i ≠ parent → i ≠ last.id →
        (f.pushBack parent t.id).slot? i = f.slot? i :=
      fun i hi hi' => by rw [hslots, if_neg hi, if_neg hi']
    refine ⟨?_, ?_, fun i hi hmem => hkeep i hi fun h => hmem (h ▸ hlastId)⟩
    · rw [hslots, if_pos rfl, hslot]
      simp [slotOf, List.head?_append, List.getLast?_append]
    · rw [List.append_assoc]
      refine holdsAll_append.mpr ⟨hinit.congr fun i hi => hkeep i ?_ ?_, ?_, ?_, trivial⟩
      · exact hne i (by simp [ids_append, hi])
      · exact fun h => hfront i hi _ (by simp) h
      · rw [holds_slot] at hfinal ⊢
        refine ⟨?_, hfinal.2.congr fun i hi => hkeep i ?_ fun h => hbelow (h ▸ hi)⟩
        · rw [hslots, if_neg (hne _ (List.mem_append_left _ hlastId)), if_pos rfl, hfinal.1]
          rfl
        · exact hne i (by simp [ids_append, ids_singleton, hi])
      · refine ht.congr fun i hi => hkeep i (hne i (by simp [hi])) fun h => ?_
        exact hdisjoint _ hlastId i hi h.symm

mutual

theorem holds_plant {t : Tree} {f : Forest} (hblank : ∀ i ∈ ids [t], f.Blank i)
    (hnodup : (ids [t]).Nodup) :
    Holds (plant t f) none t ∧ ∀ i, i ∉ ids [t] → (plant t f).slot? i = f.slot? i := by
  cases t with
  | node id data children =>
    have hids : ids [Tree.node id data children] = id :: ids children := ids_singleton _
    rw [hids] at hblank hnodup ⊢
    obtain ⟨old, hold⟩ := hblank id (List.mem_cons_self ..)
    have hslots : ∀ i, (f.mapNode id fun _ => data).slot? i
        = if i = id then (f.slot? i).map fun s => { s with data } else f.slot? i :=
      slot?_modify id _
    have hroot : (f.mapNode id fun _ => data).slot? id = some (slotOf data [] none) := by
      rw [hslots, if_pos rfl, hold]
      rfl
    have hblanks : ∀ i ∈ ids children, (f.mapNode id fun _ => data).Blank i := by
      intro i hi
      obtain ⟨old', hold'⟩ := hblank i (List.mem_cons_of_mem _ hi)
      have hne : i ≠ id := fun h => (List.nodup_cons.mp hnodup).1 (h ▸ hi)
      exact ⟨old', by rw [hslots, if_neg hne, hold']⟩
    obtain ⟨hslot, hbelow, hframe⟩ :=
      holds_plantAll hroot (show HoldsAll _ none [] from trivial) hblanks hnodup
    refine ⟨⟨hslot, hbelow⟩, fun i hi => ?_⟩
    rw [List.mem_cons, not_or] at hi
    rw [plant, hframe i hi.1 hi.2, hslots, if_neg hi.1]

theorem holds_plantAll {ts before : List Tree} {f : Forest} {parent : NodeId} {data : Node}
    {next : Option NodeId} (hslot : f.slot? parent = some (slotOf data before next))
    (hbefore : HoldsAll f none before) (hblank : ∀ i ∈ ids ts, f.Blank i)
    (hnodup : (parent :: ids (before ++ ts)).Nodup) :
    (plantAll parent ts f).slot? parent = some (slotOf data (before ++ ts) next)
      ∧ HoldsAll (plantAll parent ts f) none (before ++ ts)
      ∧ ∀ i, i ≠ parent → i ∉ ids (before ++ ts) → (plantAll parent ts f).slot? i = f.slot? i := by
  cases ts with
  | nil =>
    rw [List.append_nil]
    exact ⟨hslot, hbefore, fun _ _ _ => rfl⟩
  | cons t rest =>
    have happend : before ++ t :: rest = before ++ [t] ++ rest := by simp
    rw [happend] at hnodup ⊢
    have hall : ids (before ++ [t] ++ rest) = ids before ++ ids [t] ++ ids rest := by
      rw [ids_append, ids_append]
    have hfront : (parent :: ids (before ++ [t])).Nodup := by
      refine hnodup.sublist (List.Sublist.cons_cons _ ?_)
      rw [ids_append (before ++ [t])]
      exact List.sublist_append_left ..
    rw [hall] at hnodup
    obtain ⟨hparent, hnodup⟩ := List.nodup_cons.mp hnodup
    obtain ⟨hleft, -, hapart⟩ := List.nodup_append.mp hnodup
    obtain ⟨-, hnew, hapart'⟩ := List.nodup_append.mp hleft
    -- the tree is laid out on its own, then linked behind the children before it
    obtain ⟨ht, hframe⟩ :=
      holds_plant (f := f) (fun i hi => hblank i (mem_ids_cons.mpr (Or.inl hi))) hnew
    have hslot' : (plant t f).slot? parent = some (slotOf data before next) := by
      rw [hframe parent fun h => hparent (by simp [h]), hslot]
    have hbefore' : HoldsAll (plant t f) none before :=
      hbefore.congr fun i hi => hframe i fun h => hapart' i hi i h rfl
    obtain ⟨hslot₂, hbefore₂, hframe₂⟩ := holds_pushBack hslot' hbefore' ht hfront
    have hblank₂ : ∀ i ∈ ids rest, ((plant t f).pushBack parent t.id).Blank i := by
      intro i hi
      obtain ⟨old, hold⟩ := hblank i (mem_ids_cons.mpr (Or.inr hi))
      refine ⟨old, ?_⟩
      rw [hframe₂ i (fun h => hparent (by simp [← h, hi]))
        fun h => hapart i (by simp [h]) i hi rfl, hframe i fun h => hapart i (by simp [h]) i hi rfl,
        hold]
    have hnodup₂ : (parent :: ids (before ++ [t] ++ rest)).Nodup := by
      rw [hall]
      exact List.nodup_cons.mpr ⟨hparent, hnodup⟩
    obtain ⟨hslot₃, hbefore₃, hframe₃⟩ := holds_plantAll hslot₂ hbefore₂ hblank₂ hnodup₂
    refine ⟨hslot₃, hbefore₃, fun i hi hmem => ?_⟩
    rw [plantAll, hframe₃ i hi hmem]
    simp only [hall, List.mem_append, not_or] at hmem
    rw [hframe₂ i hi hmem.1.1, hframe i hmem.1.2]

end

end

/-! ## Following the links -/

section
variable {f : Forest}

theorem HoldsAll.chain {ts : List Tree} (h : HoldsAll f none ts) {fuel : Nat}
    (hfuel : ts.length ≤ fuel) : f.chain fuel (ts.head?.map Tree.id) = ts.map Tree.id := by
  induction ts generalizing fuel with
  | nil => cases fuel <;> rfl
  | cons t rest ih =>
    obtain ⟨ht, hrest⟩ := h
    obtain ⟨fuel, rfl⟩ : ∃ n, fuel = n + 1 :=
      Nat.exists_eq_add_one_of_ne_zero (by rintro rfl; cases hfuel)
    have hnext : f.next? t.id = rest.head?.map Tree.id := by
      rw [next?, (holds_slot.mp ht).1]
      exact Option.or_none
    rw [List.head?_cons, Option.map_some, Forest.chain, hnext, ih hrest (by simpa using hfuel),
      List.map_cons]

theorem Holds.index_lt {next : Option NodeId} {t : Tree} (h : Holds f next t) :
    t.id.index < f.size := by
  have hslot := (holds_slot.mp h).1
  exact (Array.getElem?_eq_some_iff.mp hslot).1

mutual

/-- Every node of a tree that is held is held too. -/
theorem Holds.inside {next : Option NodeId} {t u : Tree} (h : Holds f next t)
    (hu : u ∈ t.preorder) : ∃ next', Holds f next' u := by
  cases t with
  | node id data children =>
    rw [Tree.preorder, List.mem_cons] at hu
    rcases hu with rfl | hu
    · exact ⟨next, h⟩
    · exact h.2.inside hu

theorem HoldsAll.inside {next : Option NodeId} {ts : List Tree} {u : Tree}
    (h : HoldsAll f next ts) (hu : u ∈ Tree.preorderAll ts) : ∃ next', Holds f next' u := by
  cases ts with
  | nil => simp [Tree.preorderAll] at hu
  | cons t rest =>
    rw [Tree.preorderAll, List.mem_append] at hu
    rcases hu with hu | hu
    · exact h.1.inside hu
    · exact h.2.inside hu

end

/-- A list of different nodes of a store is not longer than the store. -/
theorem length_le_size {list : List NodeId} (hnodup : list.Nodup) (hin : ∀ c ∈ list, c.index < f.size) :
    list.length ≤ f.size := by
  have hindex : (list.map NodeId.index).Nodup :=
    List.Nodup.map (fun a b hab => by cases a; cases b; simpa using hab) hnodup
  have hsub : list.map NodeId.index ⊆ List.range f.size := by
    intro i hi
    obtain ⟨c, hc, rfl⟩ := List.mem_map.mp hi
    exact List.mem_range.mpr (hin c hc)
  simpa using (List.subperm_of_subset hindex hsub).length_le

/-- A store is at least as large as a tree in it whose nodes differ. -/
theorem length_ids_le {ts : List Tree} (h : HoldsAll f none ts) (hnodup : (ids ts).Nodup) :
    (ids ts).length ≤ f.size := by
  apply length_le_size hnodup
  intro i hi
  obtain ⟨u, hu, rfl⟩ := List.mem_map.mp hi
  obtain ⟨next', hheld⟩ := h.inside hu
  exact hheld.index_lt

theorem length_le_ids (ts : List Tree) : ts.length ≤ (ids ts).length := by
  induction ts with
  | nil => exact Nat.zero_le _
  | cons t rest ih =>
    rw [ids_cons t, ids_singleton]
    simp only [List.length_cons, List.length_append]
    omega

/-- The children of a node, found by its links. -/
theorem Holds.children {next : Option NodeId} {t : Tree} (h : Holds f next t)
    (hsize : t.children.length ≤ f.size) : f.children t.id = t.children.map Tree.id := by
  obtain ⟨hslot, hbelow⟩ := holds_slot.mp h
  rw [Forest.children, first?, hslot]
  exact hbelow.chain hsize

mutual

theorem Holds.treeAt {next : Option NodeId} {t : Tree} (h : Holds f next t) {fuel : Nat}
    (hfuel : (ids [t]).length ≤ fuel) (hsize : (ids [t]).length ≤ f.size) :
    f.treeAt fuel t.id = t := by
  cases t with
  | node id data children =>
    have hids : ids [Tree.node id data children] = id :: ids children := ids_singleton _
    rw [hids, List.length_cons] at hfuel hsize
    obtain ⟨fuel, rfl⟩ : ∃ n, fuel = n + 1 :=
      Nat.exists_eq_add_one_of_ne_zero (by rintro rfl; cases hfuel)
    have hlength := length_le_ids children
    have hchildren := h.children (by simp only [Tree.children]; omega)
    have hnode : f.node? id = some data := by simp [node?, h.1]
    have hmap := h.2.treeAt (show (ids children).length ≤ fuel by omega) (by omega)
    simp only [Tree.id, Tree.children] at hchildren ⊢
    rw [Forest.treeAt, hchildren, hnode, hmap]
    rfl

theorem HoldsAll.treeAt {next : Option NodeId} {ts : List Tree} (h : HoldsAll f next ts)
    {fuel : Nat} (hfuel : (ids ts).length ≤ fuel) (hsize : (ids ts).length ≤ f.size) :
    (ts.map Tree.id).map (f.treeAt fuel) = ts := by
  cases ts with
  | nil => rfl
  | cons t rest =>
    rw [ids_cons t, List.length_append] at hfuel hsize
    rw [List.map_cons, List.map_cons, h.1.treeAt (by omega) (by omega),
      h.2.treeAt (by omega) (by omega)]

end

/-- Following the links gives a tree back. -/
theorem Holds.tree {t : Tree} (h : Holds f none t) (hnodup : (ids [t]).Nodup) :
    f.tree t.id = t := by
  have hsize := length_ids_le (show HoldsAll f none [t] from ⟨h, trivial⟩) hnodup
  exact h.treeAt hsize hsize

end

/-! ## A store for a tree -/

/-- A store of nodes without links. -/
def blank (size : Nat) : Forest := ⟨Array.replicate size { data := default }⟩

/-- The number of slots that a tree's identities ask for. -/
def room (t : Tree) : Nat := ((ids [t]).map (·.index + 1)).foldr max 0

/-- A tree in a store of its own. -/
def ofTree (t : Tree) : Forest := plant t (blank (room t))

theorem blank_blank {size : Nat} {id : NodeId} (h : id.index < size) : (blank size).Blank id :=
  ⟨default, by simp [slot?, blank, h]⟩

theorem index_lt_room {t : Tree} {i : NodeId} (hi : i ∈ ids [t]) : i.index < room t := by
  rw [room]
  generalize ids [t] = all at hi ⊢
  induction all with
  | nil => cases hi
  | cons j rest ih =>
    rw [List.map_cons, List.foldr_cons]
    rcases List.mem_cons.mp hi with rfl | hi
    · exact Nat.lt_of_lt_of_le (Nat.lt_succ_self _) (Nat.le_max_left ..)
    · exact Nat.lt_of_lt_of_le (ih hi) (Nat.le_max_right ..)

/-- A tree whose nodes have identities of their own is held by its store. -/
theorem holds_ofTree {t : Tree} (hnodup : (ids [t]).Nodup) : Holds (ofTree t) none t :=
  (holds_plant (fun _ hi => blank_blank (index_lt_room hi)) hnodup).1

end Forest
end ScriptPress
