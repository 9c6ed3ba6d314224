import ScriptPress.Proofs.Shape.Nodes

/-! # Jumps of trees and their tallies

The jumps in a tree in the order of the text, and what must hold of the nodes of trees that were
built while identities were given out and jumps were written down: identities are new, every
statement has noted the jumps to it, every switch its clauses, and no property names a node that
is neither in the trees nor around them.
-/
namespace ScriptPress

/-- The nodes a value names. -/
def PropertyValue.refs : PropertyValue → List NodeId
  | .node id => [id]
  | .nodes ids => ids
  | _ => []

/-- The nodes that the properties of a node name. -/
def Node.refs (n : Node) : List NodeId := n.properties.entries.flatMap (·.2.refs)

/-- The nodes that jumps to a node come from, in their order. -/
def jumpsTo (id : NodeId) (jumps : List (NodeId × NodeId)) : List NodeId :=
  (jumps.filter (·.1 == id)).map (·.2)

/-- The value of a list property that is left out when there is nothing to list. -/
def listed? (ids : List NodeId) : Option PropertyValue :=
  if ids.isEmpty then none else some (.nodes ids)

namespace Tree

/-- The identities of trees, parents before children. -/
def ids (ts : List Tree) : List NodeId := (preorderAll ts).map id

def isJump (t : Tree) : Bool := t.tag == .kwBreak || t.tag == .kwContinue

/-- A jump's target and the jump itself. -/
def jump? (t : Tree) : Option (NodeId × NodeId) :=
  if t.isJump then (t.data.properties.node? .target).map (·, t.id) else none

/-- The jumps in trees, in the order of the text. -/
def jumps (ts : List Tree) : List (NodeId × NodeId) := (preorderAll ts).filterMap jump?

/-- A switch has noted its clauses, of which one at most is the default. -/
def Switched (t : Tree) : Prop :=
  t.tag = .kwSwitch →
    t.data.properties.get? .cases = some (.nodes ((t.children.filter (·.tag == .kwCase)).map id))
    ∧ t.data.properties.get? .defaultClause
      = (t.children.find? (·.tag == .kwDefault)).map (fun c => .node c.id)
    ∧ (t.children.filter (·.tag == .kwDefault)).length ≤ 1

/-! ## Trees one behind the other -/

theorem preorderAll_append (ts us : List Tree) :
    preorderAll (ts ++ us) = preorderAll ts ++ preorderAll us := by
  induction ts with
  | nil => rfl
  | cons t ts ih => rw [List.cons_append, preorderAll, ih, preorderAll, List.append_assoc]

theorem preorder_eq (t : Tree) : preorder t = t :: preorderAll t.children := by
  cases t
  rfl

theorem preorderAll_singleton (t : Tree) : preorderAll [t] = t :: preorderAll t.children := by
  rw [preorderAll, preorderAll, List.append_nil, preorder_eq]

theorem mem_preorderAll {u : Tree} {ts : List Tree} :
    u ∈ preorderAll ts ↔ ∃ t ∈ ts, u ∈ t.preorder := by
  induction ts with
  | nil => simp [preorderAll]
  | cons t ts ih => simp only [preorderAll, List.mem_append, ih, List.mem_cons, exists_eq_or_imp]

theorem ids_append (ts us : List Tree) : ids (ts ++ us) = ids ts ++ ids us := by
  rw [ids, preorderAll_append, List.map_append, ids, ids]

theorem ids_singleton (t : Tree) : ids [t] = t.id :: ids t.children := by
  rw [ids, preorderAll_singleton, List.map_cons, ids]

theorem jumps_append (ts us : List Tree) : jumps (ts ++ us) = jumps ts ++ jumps us := by
  rw [jumps, preorderAll_append, List.filterMap_append, jumps, jumps]

theorem jumps_singleton (t : Tree) : jumps [t] = t.jump?.toList ++ jumps t.children := by
  rw [jumps, preorderAll_singleton, List.filterMap_cons, jumps]
  cases t.jump? <;> rfl

theorem mem_ids {t : Tree} {ts : List Tree} (h : t ∈ preorderAll ts) : t.id ∈ ids ts :=
  List.mem_map_of_mem h

end Tree

/-! ## Properties that name nodes -/

namespace Properties
variable {p : Properties} {kind : PropertyKind} {value : PropertyValue}

theorem mem_putIn {entries : List (PropertyKind × PropertyValue)} :
    ∀ e ∈ putIn kind value entries, e = (kind, value) ∨ e ∈ entries := by
  induction entries with
  | nil => simp [putIn]
  | cons entry rest ih =>
    intro e he
    rw [putIn] at he
    split at he
    · rcases List.mem_cons.mp he with rfl | he
      · exact Or.inl rfl
      · exact Or.inr (List.mem_cons_of_mem _ he)
    · rcases List.mem_cons.mp he with rfl | he
      · exact Or.inr (List.mem_cons_self ..)
      · exact (ih e he).imp_right (List.mem_cons_of_mem _)

theorem node?_congr {q : Properties} {k : PropertyKind} (h : p.get? k = q.get? k) :
    p.node? k = q.node? k := by
  rw [node?, h]
  rfl

end Properties

namespace Node
variable {n : Node} {kind : PropertyKind} {value : PropertyValue}

theorem refs_put : ∀ id ∈ (n.put kind value).refs, id ∈ value.refs ∨ id ∈ n.refs := by
  intro id hid
  obtain ⟨e, he, hid⟩ := List.mem_flatMap.mp hid
  rcases Properties.mem_putIn e he with rfl | he
  · exact Or.inl hid
  · exact Or.inr (List.mem_flatMap.mpr ⟨e, he, hid⟩)

/-- A node that is no function and whose properties name no node. -/
structure Quiet (n : Node) : Prop where
  refs : n.refs = []
  jumps : n.properties.get? .jumps = none
  tag : n.tag ≠ .kwBreak ∧ n.tag ≠ .kwContinue ∧ n.tag ≠ .kwSwitch
  noFunction : n.tag ≠ .kwFunction

theorem Quiet.put (h : n.Quiet) (hv : value.refs = []) (hk : kind ≠ .jumps) :
    (n.put kind value).Quiet := by
  refine ⟨List.eq_nil_iff_forall_not_mem.mpr fun id hid => ?_, ?_, h.tag, h.noFunction⟩
  · rcases refs_put id hid with hid | hid
    · simp [hv] at hid
    · simp [h.refs] at hid
  · rw [Node.put, Properties.get?_put, if_neg (Ne.symm hk)]
    exact h.jumps

theorem Quiet.mark (h : n.Quiet) {holds : Bool} (hk : kind ≠ .jumps) :
    (n.mark kind holds).Quiet := by
  cases holds with
  | false => exact h
  | true => exact h.put rfl hk

theorem quiet_of_entries {n : Node} (h : n.properties.entries = [])
    (ht : n.tag ≠ .kwBreak ∧ n.tag ≠ .kwContinue ∧ n.tag ≠ .kwSwitch)
    (hf : n.tag ≠ .kwFunction) : n.Quiet :=
  ⟨by simp [Node.refs, h], by simp [Properties.get?, h], ht, hf⟩

end Node

/-! ## Tallies -/

/-- The next identity and the jumps written down so far. -/
structure Ledger where
  nextId : Nat
  jumps : List (NodeId × NodeId)

/-- Nodes known to a place, and the targets of the jumps written down, have identities that were
given out before. -/
structure Ledger.Covers (l : Ledger) (known : List NodeId) : Prop where
  known : ∀ id ∈ known, id.index < l.nextId
  jumps : ∀ j ∈ l.jumps, j.1.index < l.nextId

/-- Between two ledgers trees were built at a place that knows some nodes, to some of which, the
goals, jumps can go. -/
structure Tally (goals known : List NodeId) (l l' : Ledger) (ts : List Tree) : Prop where
  le : l.nextId ≤ l'.nextId
  fresh : ∀ id ∈ Tree.ids ts, l.nextId ≤ id.index ∧ id.index < l'.nextId
  nodup : (Tree.ids ts).Nodup
  jumps : l'.jumps = l.jumps ++ Tree.jumps ts
  aims : ∀ j ∈ Tree.jumps ts, j.1 ∈ Tree.ids ts ∨ j.1 ∈ goals
  refs : ∀ t ∈ Tree.preorderAll ts, ∀ id ∈ t.data.refs, id ∈ Tree.ids ts ∨ id ∈ known
  noted : ∀ t ∈ Tree.preorderAll ts,
    t.data.properties.get? .jumps = listed? (jumpsTo t.id (Tree.jumps ts))
  switched : ∀ t ∈ Tree.preorderAll ts, t.Switched

theorem jumpsTo_append (id : NodeId) (jumps more : List (NodeId × NodeId)) :
    jumpsTo id (jumps ++ more) = jumpsTo id jumps ++ jumpsTo id more := by
  simp [jumpsTo]

theorem jumpsTo_eq_nil {id : NodeId} {jumps : List (NodeId × NodeId)}
    (h : ∀ j ∈ jumps, j.1 ≠ id) : jumpsTo id jumps = [] := by
  rw [jumpsTo, List.map_eq_nil_iff, List.filter_eq_nil_iff]
  intro j hj
  simpa using h j hj

namespace Tally
variable {goals known : List NodeId} {l l₁ l₂ : Ledger} {ts us cs cs' : List Tree}

theorem nil (goals known : List NodeId) (l : Ledger) : Tally goals known l l [] :=
  ⟨Nat.le_refl _, by simp [Tree.ids, Tree.preorderAll], by simp [Tree.ids, Tree.preorderAll],
    by simp [Tree.jumps, Tree.preorderAll], by simp [Tree.jumps, Tree.preorderAll],
    by simp [Tree.preorderAll], by simp [Tree.preorderAll], by simp [Tree.preorderAll]⟩

theorem mono {goals' known' : List NodeId} (h : Tally goals known l l₁ ts)
    (hgoals : ∀ id ∈ goals, id ∈ goals') (hknown : ∀ id ∈ known, id ∈ known') :
    Tally goals' known' l l₁ ts :=
  { h with
    aims := fun j hj => (h.aims j hj).imp_right (hgoals _)
    refs := fun t ht id hid => (h.refs t ht id hid).imp_right (hknown _) }

/-- The jumps in trees go to nodes that were given an identity before, or in them. -/
theorem target_lt (h : Tally goals known l l₁ ts) (hgoals : ∀ id ∈ goals, id.index < l.nextId) :
    ∀ j ∈ Tree.jumps ts, j.1.index < l₁.nextId := by
  intro j hj
  rcases h.aims j hj with hj | hj
  · exact (h.fresh _ hj).2
  · exact Nat.lt_of_lt_of_le (hgoals _ hj) h.le

theorem covers (h : Tally goals known l l₁ ts) (hgoals : ∀ id ∈ goals, id.index < l.nextId)
    (hl : l.Covers known) : l₁.Covers known := by
  refine ⟨fun id hid => Nat.lt_of_lt_of_le (hl.known id hid) h.le, fun j hj => ?_⟩
  rw [h.jumps] at hj
  rcases List.mem_append.mp hj with hj | hj
  · exact Nat.lt_of_lt_of_le (hl.jumps j hj) h.le
  · exact h.target_lt hgoals j hj

/-- No jump written down in trees goes to a node made after the goals and outside the trees. -/
theorem jumpsTo_none (h : Tally goals known l l₁ ts) (hgoals : ∀ id ∈ goals, id.index < l.nextId)
    {id : NodeId} (hlow : l.nextId ≤ id.index) (hid : id ∉ Tree.ids ts) :
    jumpsTo id (Tree.jumps ts) = [] := by
  refine jumpsTo_eq_nil fun j hj hji => ?_
  rcases h.aims j hj with hj | hj
  · exact hid (hji ▸ hj)
  · have hlt := hgoals _ hj
    rw [hji] at hlt
    omega

/-- Trees built one behind the other. Before the second ones, nodes may have become known that got
their identities just then. -/
theorem append_opened {goals' known' : List NodeId} {l₁' : Ledger}
    (h : Tally goals known l l₁ ts) (h' : Tally goals' known' l₁' l₂ us)
    (hle : l₁.nextId ≤ l₁'.nextId) (hjumps : l₁'.jumps = l₁.jumps)
    (hgoals : ∀ id ∈ goals, id.index < l.nextId) (hsub : ∀ id ∈ goals, id ∈ goals')
    (hnew : ∀ id ∈ goals', id ∈ goals ∨ l₁.nextId ≤ id.index ∧ id.index < l₁'.nextId)
    (hknown : ∀ id ∈ known, id ∈ known') : Tally goals' known' l l₂ (ts ++ us) := by
  refine ⟨Nat.le_trans h.le (Nat.le_trans hle h'.le), ?_, ?_, ?_, ?_, ?_, ?_, ?_⟩
  · intro id hid
    rw [Tree.ids_append, List.mem_append] at hid
    have := h.le
    have := h'.le
    rcases hid with hid | hid
    · have := h.fresh id hid
      omega
    · have := h'.fresh id hid
      omega
  · rw [Tree.ids_append, List.nodup_append]
    refine ⟨h.nodup, h'.nodup, fun a ha b hb hab => ?_⟩
    subst hab
    have := h.fresh a ha
    have := h'.fresh a hb
    omega
  · rw [h'.jumps, hjumps, h.jumps, Tree.jumps_append, List.append_assoc]
  · intro j hj
    rw [Tree.jumps_append, List.mem_append] at hj
    rw [Tree.ids_append, List.mem_append]
    rcases hj with hj | hj
    · exact (h.aims j hj).imp Or.inl (hsub _)
    · exact (h'.aims j hj).imp_left Or.inr
  · intro t ht id hid
    rw [Tree.preorderAll_append, List.mem_append] at ht
    rw [Tree.ids_append, List.mem_append]
    rcases ht with ht | ht
    · exact (h.refs t ht id hid).imp Or.inl (hknown _)
    · exact (h'.refs t ht id hid).imp_left Or.inr
  · intro t ht
    rw [Tree.jumps_append, jumpsTo_append]
    rw [Tree.preorderAll_append, List.mem_append] at ht
    rcases ht with ht | ht
    · have hfresh := h.fresh _ (Tree.mem_ids ht)
      have hnone : jumpsTo t.id (Tree.jumps us) = [] := jumpsTo_eq_nil fun j hj hji => ?_
      · rw [hnone, List.append_nil]
        exact h.noted t ht
      rcases h'.aims j hj with hj | hj
      · have := h'.fresh _ hj
        rw [hji] at this
        omega
      · rcases hnew _ hj with hj | hj
        · have := hgoals _ hj
          rw [hji] at this
          omega
        · rw [hji] at hj
          omega
    · have hfresh := h'.fresh _ (Tree.mem_ids ht)
      rw [h.jumpsTo_none hgoals (Nat.le_trans h.le (Nat.le_trans hle hfresh.1)) fun hid => ?_,
        List.nil_append]
      · exact h'.noted t ht
      · have := h.fresh _ hid
        omega
  · intro t ht
    rw [Tree.preorderAll_append, List.mem_append] at ht
    exact ht.elim (h.switched t) (h'.switched t)

theorem append (h : Tally goals known l l₁ ts) (h' : Tally goals known l₁ l₂ us)
    (hgoals : ∀ id ∈ goals, id.index < l.nextId) : Tally goals known l l₂ (ts ++ us) :=
  h.append_opened h' (Nat.le_refl _) rfl hgoals (fun _ h => h) (fun _ h => Or.inl h) fun _ h => h

/-- A node over trees that were built before and after it got its identity. It is no jump. -/
theorem node {id : NodeId} {data : Node} (h : Tally goals known l l₁ cs)
    (hid : id.index = l₁.nextId)
    (h' : Tally (id :: goals) (id :: known) ⟨l₁.nextId + 1, l₁.jumps⟩ l₂ cs')
    (hl : l.Covers known) (hgoals : ∀ id ∈ goals, id ∈ known)
    (hjump : (Tree.node id data (cs ++ cs')).isJump = false)
    (hrefs : ∀ r ∈ data.refs, r = id ∨ r ∈ Tree.ids (cs ++ cs') ∨ r ∈ known)
    (hnoted : data.properties.get? .jumps = listed? (jumpsTo id l₂.jumps))
    (hswitched : (Tree.node id data (cs ++ cs')).Switched) :
    Tally goals known l l₂ [.node id data (cs ++ cs')] := by
  have hlow : ∀ g ∈ goals, g.index < l.nextId := fun g hg => hl.known g (hgoals g hg)
  have hall := h.append_opened h' (Nat.le_succ _) rfl hlow (fun _ => List.mem_cons_of_mem _)
    (fun g hg => (List.mem_cons.mp hg).elim
      (fun he => Or.inr ⟨by rw [he, hid], by rw [he, hid]; exact Nat.lt_succ_self _⟩) Or.inl)
    fun _ => List.mem_cons_of_mem _
  have hle := h.le
  have hle' : l₁.nextId + 1 ≤ l₂.nextId := h'.le
  have hnot : id ∉ Tree.ids (cs ++ cs') := by
    rw [Tree.ids_append, List.mem_append]
    rintro (hmem | hmem)
    · have := h.fresh _ hmem
      omega
    · have : l₁.nextId + 1 ≤ id.index := (h'.fresh _ hmem).1
      omega
  have hids : Tree.ids [.node id data (cs ++ cs')] = id :: Tree.ids (cs ++ cs') :=
    Tree.ids_singleton _
  have hjumps : Tree.jumps [.node id data (cs ++ cs')] = Tree.jumps (cs ++ cs') := by
    rw [Tree.jumps_singleton, Tree.jump?, hjump]
    rfl
  have hpre : Tree.preorderAll [.node id data (cs ++ cs')]
      = .node id data (cs ++ cs') :: Tree.preorderAll (cs ++ cs') := Tree.preorderAll_singleton _
  refine ⟨by omega, ?_, ?_, ?_, ?_, ?_, ?_, ?_⟩
  · rw [hids, List.forall_mem_cons]
    exact ⟨by omega, hall.fresh⟩
  · rw [hids]
    exact List.nodup_cons.mpr ⟨hnot, hall.nodup⟩
  · rw [hjumps]
    exact hall.jumps
  · intro j hj
    rw [hjumps] at hj
    rw [hids, List.mem_cons]
    rcases hall.aims j hj with hj | hj
    · exact Or.inl (Or.inr hj)
    · exact (List.mem_cons.mp hj).imp_left Or.inl
  · rw [hpre, hids, List.forall_mem_cons]
    constructor
    · intro r hr
      rw [List.mem_cons]
      exact or_assoc.mpr (hrefs r hr)
    · intro t ht r hr
      rw [List.mem_cons]
      rcases hall.refs t ht r hr with hr | hr
      · exact Or.inl (Or.inr hr)
      · exact (List.mem_cons.mp hr).imp_left Or.inl
  · rw [hpre, hjumps, List.forall_mem_cons]
    refine ⟨?_, hall.noted⟩
    have hbefore : jumpsTo id l.jumps = [] := jumpsTo_eq_nil fun j hj hji => by
      have := hl.jumps j hj
      rw [hji] at this
      omega
    have hnow := hnoted
    rwa [hall.jumps, jumpsTo_append, hbefore, List.nil_append] at hnow
  · rw [hpre, List.forall_mem_cons]
    exact ⟨hswitched, hall.switched⟩

/-- A node that is no jump, and to which no jump goes. -/
theorem node_unaimed {id : NodeId} {data : Node} (h : Tally goals known l l₁ cs)
    (hid : id.index = l₁.nextId)
    (h' : Tally goals known ⟨l₁.nextId + 1, l₁.jumps⟩ l₂ cs')
    (hl : l.Covers known) (hgoals : ∀ id ∈ goals, id ∈ known)
    (hjump : (Tree.node id data (cs ++ cs')).isJump = false)
    (hrefs : ∀ r ∈ data.refs, r ∈ Tree.ids (cs ++ cs')) (hnoted : data.properties.get? .jumps = none)
    (hswitched : (Tree.node id data (cs ++ cs')).Switched) :
    Tally goals known l l₂ [.node id data (cs ++ cs')] := by
  have hle := h.le
  have hl₁ : l₁.Covers known := h.covers (fun g hg => hl.known g (hgoals g hg)) hl
  have hnone : jumpsTo id l₂.jumps = [] := by
    rw [h'.jumps, jumpsTo_append, jumpsTo_eq_nil fun j hj hji => ?_,
      jumpsTo_eq_nil fun j hj hji => ?_]
    · rfl
    · rcases h'.aims j hj with hj | hj
      · have : l₁.nextId + 1 ≤ j.1.index := (h'.fresh _ hj).1
        rw [hji] at this
        omega
      · have := hl.known _ (hgoals _ hj)
        rw [hji] at this
        omega
    · have := hl₁.jumps j hj
      rw [hji] at this
      omega
  refine h.node hid (h'.mono (fun _ => List.mem_cons_of_mem _) fun _ => List.mem_cons_of_mem _)
    hl hgoals hjump (fun r hr => Or.inr (Or.inl (hrefs r hr))) ?_ hswitched
  rw [hnoted, hnone]
  rfl

theorem node_quiet {id : NodeId} {data : Node} (h : Tally goals known l l₁ cs)
    (hid : id.index = l₁.nextId)
    (h' : Tally goals known ⟨l₁.nextId + 1, l₁.jumps⟩ l₂ cs')
    (hl : l.Covers known) (hgoals : ∀ id ∈ goals, id ∈ known) (hdata : data.Quiet) :
    Tally goals known l l₂ [.node id data (cs ++ cs')] := by
  obtain ⟨hrefs, hjumps, ⟨hbreak, hcontinue, hswitch⟩, -⟩ := hdata
  refine h.node_unaimed hid h' hl hgoals ?_ (by simp [hrefs]) hjumps fun htag => ?_
  · simp [Tree.isJump, Tree.tag, Tree.data, hbreak, hcontinue]
  · exact absurd htag hswitch

/-- A jump that is written down when its node is made, over nodes without jumps. -/
theorem jump {id target : NodeId} {data : Node} (hid : id.index = l.nextId)
    (h : Tally goals known ⟨l.nextId + 1, l.jumps⟩ l₁ cs) (hcs : Tree.jumps cs = [])
    (hl : l.Covers known) (hgoals : ∀ id ∈ goals, id ∈ known)
    (hjump : (Tree.node id data cs).isJump = true)
    (htarget : data.properties.get? .target = some (.node target)) (hgoal : target ∈ goals)
    (hrefs : ∀ r ∈ data.refs, r = target) (hnoted : data.properties.get? .jumps = none) :
    Tally goals known l ⟨l₁.nextId, l₁.jumps ++ [(target, id)]⟩ [.node id data cs] := by
  have hle : l.nextId + 1 ≤ l₁.nextId := h.le
  have hnot : id ∉ Tree.ids cs := fun hmem => by
    have : l.nextId + 1 ≤ id.index := (h.fresh _ hmem).1
    omega
  have hlow := hl.known _ (hgoals _ hgoal)
  have hids : Tree.ids [.node id data cs] = id :: Tree.ids cs := Tree.ids_singleton _
  have hjumps : Tree.jumps [.node id data cs] = [(target, id)] := by
    have hown : Tree.jump? (.node id data cs) = some (target, id) := by
      rw [Tree.jump?, if_pos hjump]
      simp [Properties.node?, Tree.data, Tree.id, htarget]
    rw [Tree.jumps_singleton, hown]
    exact congrArg ((target, id) :: ·) hcs
  have hpre : Tree.preorderAll [.node id data cs] = .node id data cs :: Tree.preorderAll cs :=
    Tree.preorderAll_singleton _
  have htag : data.tag ≠ .kwSwitch := by
    intro htag
    simp [Tree.isJump, Tree.tag, Tree.data, htag] at hjump
  refine ⟨by simp only; omega, ?_, ?_, ?_, ?_, ?_, ?_, ?_⟩
  · rw [hids, List.forall_mem_cons]
    refine ⟨by simp only; omega, fun i hi => ?_⟩
    have : l.nextId + 1 ≤ i.index ∧ i.index < l₁.nextId := h.fresh i hi
    simp only
    omega
  · rw [hids]
    exact List.nodup_cons.mpr ⟨hnot, h.nodup⟩
  · have hcsJumps : l₁.jumps = l.jumps ++ Tree.jumps cs := h.jumps
    rw [hjumps, hcsJumps, hcs, List.append_nil]
  · rw [hjumps]
    simpa using Or.inr hgoal
  · rw [hpre, hids, List.forall_mem_cons]
    refine ⟨fun r hr => Or.inr (hgoals _ (hrefs r hr ▸ hgoal)), fun t ht r hr => ?_⟩
    exact (h.refs t ht r hr).imp_left (List.mem_cons_of_mem _)
  · have hnone : ∀ i : NodeId, l.nextId ≤ i.index → jumpsTo i [(target, id)] = [] := fun i hi =>
      jumpsTo_eq_nil fun j hj hji => by
        rw [List.mem_singleton.mp hj] at hji
        rw [show target = i from hji] at hlow
        omega
    rw [hpre, hjumps, List.forall_mem_cons]
    refine ⟨?_, fun t ht => ?_⟩
    · rw [hnone _ (by rw [Tree.id, hid])]
      exact hnoted
    · have : l.nextId + 1 ≤ t.id.index := (h.fresh _ (Tree.mem_ids ht)).1
      rw [hnone _ (by omega), h.noted t ht, hcs]
      rfl
  · rw [hpre, List.forall_mem_cons]
    exact ⟨fun h => absurd h htag, h.switched⟩

end Tally

/-! ## Nodes that differ in nothing a tally is about -/

/-- A node that names no more nodes than another and has noted the same. -/
structure Node.Alike (n n' : Node) : Prop where
  tag : n'.tag = n.tag
  refs : ∀ r ∈ n'.refs, r ∈ n.refs
  target : n'.properties.get? .target = n.properties.get? .target
  jumps : n'.properties.get? .jumps = n.properties.get? .jumps
  cases : n'.properties.get? .cases = n.properties.get? .cases
  defaultClause : n'.properties.get? .defaultClause = n.properties.get? .defaultClause
  enclosingFunction : n'.properties.get? .enclosingFunction = n.properties.get? .enclosingFunction
  functions : n'.properties.get? .functions = n.properties.get? .functions

theorem Node.Alike.refl (n : Node) : n.Alike n :=
  ⟨rfl, fun _ h => h, rfl, rfl, rfl, rfl, rfl, rfl⟩

/-- The kinds of comments. -/
def PropertyKind.isComments (kind : PropertyKind) : Bool :=
  kind == .comments || kind == .trailingComments

theorem Node.alike_put {n : Node} {kind : PropertyKind} (hk : kind.isComments = true)
    (comments : List String) : n.Alike (n.put kind (.texts comments)) := by
  have hne : ∀ k : PropertyKind, k.isComments = false →
      (n.put kind (.texts comments)).properties.get? k = n.properties.get? k := fun k h => by
    rw [Node.put, Properties.get?_put, if_neg]
    rintro rfl
    exact absurd (h.symm.trans hk) (by simp)
  refine ⟨rfl, fun r hr => ?_, hne _ rfl, hne _ rfl, hne _ rfl, hne _ rfl, hne _ rfl, hne _ rfl⟩
  exact (Node.refs_put r hr).elim (fun h => absurd h (by simp [PropertyValue.refs])) fun h => h

theorem Node.Alike.quiet {n n' : Node} (h : n.Alike n') (hn : n.Quiet) : n'.Quiet := by
  refine ⟨List.eq_nil_iff_forall_not_mem.mpr fun r hr => ?_, h.jumps.trans hn.jumps,
    h.tag ▸ hn.tag, h.tag ▸ hn.noFunction⟩
  simpa [hn.refs] using h.refs r hr

theorem Node.Alike.switched {n n' : Node} (h : n.Alike n') {id : NodeId} {children : List Tree}
    (hn : (Tree.node id n children).Switched) : (Tree.node id n' children).Switched := by
  intro htag
  obtain ⟨hcases, hdefault, hone⟩ := hn (h.tag.symm.trans htag)
  exact ⟨h.cases.trans hcases, h.defaultClause.trans hdefault, hone⟩

theorem Tally.alike {goals known : List NodeId} {l l' : Ledger} {id : NodeId} {n n' : Node}
    {children : List Tree} (h : Tally goals known l l' [.node id n children]) (hn : n.Alike n') :
    Tally goals known l l' [.node id n' children] := by
  have hpre : ∀ m, Tree.preorderAll [.node id m children]
      = .node id m children :: Tree.preorderAll children := fun m => Tree.preorderAll_singleton _
  have hids : Tree.ids [.node id n' children] = Tree.ids [.node id n children] := by
    rw [Tree.ids_singleton, Tree.ids_singleton]
    rfl
  have hjumps : Tree.jumps [.node id n' children] = Tree.jumps [.node id n children] := by
    have hnode : n'.properties.node? .target = n.properties.node? .target :=
      Properties.node?_congr hn.target
    have hjump : (Tree.node id n' children).isJump = (Tree.node id n children).isJump := by
      simp only [Tree.isJump, Tree.tag, Tree.data, hn.tag]
    rw [Tree.jumps_singleton, Tree.jumps_singleton, Tree.jump?, Tree.jump?, hjump]
    simp only [Tree.data, hnode]
    rfl
  refine ⟨h.le, hids ▸ h.fresh, hids ▸ h.nodup, hjumps ▸ h.jumps, hids ▸ hjumps ▸ h.aims, ?_, ?_,
    ?_⟩
  · have hrefs := h.refs
    rw [hpre, List.forall_mem_cons] at hrefs ⊢
    rw [hids]
    exact ⟨fun r hr => hrefs.1 r (hn.refs r hr), hrefs.2⟩
  · have hnoted := h.noted
    rw [hpre, List.forall_mem_cons] at hnoted ⊢
    rw [hjumps]
    exact ⟨hn.jumps.trans hnoted.1, hnoted.2⟩
  · have hswitched := h.switched
    rw [hpre, List.forall_mem_cons] at hswitched ⊢
    exact ⟨hn.switched hswitched.1, hswitched.2⟩

end ScriptPress
