import ScriptPress.Proofs.Lists.Family
import ScriptPress.Proofs.Lists.Linked

/-! # Linked stores show families

A store of linked nodes keeps the lists of a family: the links of a parent lead along its list, and
a node in no list leads nowhere. Each operation of the store changes the list that it says.
-/
namespace ScriptPress
namespace Forest

variable {f g : Forest} {l : Family} {p c b : NodeId} {list before after : List NodeId}

/-! ## Stores that show a family -/

/-- A store shows a family: it has the family's nodes, its links run along the family's lists, and
a node in no list has no next sibling. -/
structure Shows (f : Forest) (l : Family) : Prop where
  size : f.size = l.members.length
  node : ∀ i, f.node? i = l.node? i
  first : ∀ i, f.first? i = (l.children i).head?
  last : ∀ i, f.last? i = (l.children i).getLast?
  linked : ∀ i, f.Linked none (l.children i)
  loose : ∀ i, (∀ p, i ∉ l.children p) → f.next? i = none

theorem shows_empty : Shows {} {} := by
  have hslot : ∀ i, slot? {} i = none := fun _ => rfl
  constructor <;> intros <;> simp [size, node?, first?, last?, next?, hslot, Linked, Family.node?,
    Family.children]

theorem Shows.has (h : f.Shows l) : l.Has p ↔ p.index < f.size := by
  rw [h.size]
  exact Iff.rfl

theorem Shows.index_lt (h : f.Shows l) (hl : l.Sound) (hc : c ∈ l.children p) :
    c.index < f.size :=
  h.has.mp (hl.inside p c hc)

/-- Following the links gives the lists. -/
theorem Shows.children (h : f.Shows l) (hl : l.Sound) : f.children p = l.children p := by
  have hlength : (l.children p).length ≤ f.size :=
    length_le_size (hl.nodup p) fun c hc => h.index_lt hl hc
  rw [Forest.children, h.first, (h.linked p).chain hlength]

theorem Shows.add (h : f.Shows l) (n : Node) : (f.alloc n).2.Shows (l.add n) := by
  constructor
  · rw [size_alloc, Family.length_add, h.size]
  · intro i
    rw [node?_alloc, Family.node?_add, h.size, h.node]
  · intro i
    rw [first?_alloc, Family.children_add, h.first]
  · intro i
    rw [last?_alloc, Family.children_add, h.last]
  · intro i
    rw [Family.children_add]
    exact (h.linked i).congr fun c _ => next?_alloc
  · intro i hi
    rw [next?_alloc]
    apply h.loose
    intro p hp
    exact hi p (by rwa [Family.children_add])

/-- A change of one list: where the links of one parent run along a list of its own children and
free nodes, and nothing else is changed, the family has that list instead. -/
theorem Shows.put (h : f.Shows l) (hl : l.Sound) (hp : l.Has p)
    (hnew : ∀ c ∈ list, c ∈ l.children p ∨ l.Free c) (hsize : g.size = f.size)
    (hnode : ∀ i, g.node? i = f.node? i)
    (hfirst : ∀ i, g.first? i = if i = p then list.head? else f.first? i)
    (hlast : ∀ i, g.last? i = if i = p then list.getLast? else f.last? i)
    (hlinked : g.Linked none list)
    (hsame : ∀ i, i ∉ l.children p → i ∉ list → g.next? i = f.next? i)
    (hgone : ∀ i ∈ l.children p, i ∉ list → g.next? i = none) : g.Shows (l.put p list) := by
  constructor
  · rw [hsize, Family.length_put, h.size]
  · intro i
    rw [hnode, Family.node?_put, h.node]
  · intro i
    rw [hfirst, Family.children_put hp, apply_ite List.head?, h.first]
  · intro i
    rw [hlast, Family.children_put hp, apply_ite List.getLast?, h.last]
  · intro i
    rw [Family.children_put hp]
    split
    · exact hlinked
    · next hi =>
      -- the other lists share no node with the old list or the new one
      apply (h.linked i).congr
      intro c hc
      have hold : c ∉ l.children p := fun hin => hi (hl.apart i p c hc hin)
      apply hsame c hold
      intro hin
      rcases hnew c hin with hin | hfree
      · exact hold hin
      · exact Family.mem_children hfree hc
  · intro i hi
    have hout : i ∉ list := by
      have hi := hi p
      rwa [Family.children_put hp, if_pos rfl] at hi
    by_cases hin : i ∈ l.children p
    · exact hgone i hin hout
    · rw [hsame i hin hout]
      apply h.loose
      intro q
      by_cases hq : q = p
      · rwa [hq]
      · have hi := hi q
        rwa [Family.children_put hp, if_neg hq] at hi

theorem Shows.free_next (h : f.Shows l) (hc : l.Free c) : f.next? c = none :=
  h.loose c fun _ => Family.mem_children hc

/-- A stretch of one list that is changed for other nodes. The node before it leads to what comes
behind, and the nodes taken out lead nowhere. -/
theorem Shows.splice {old : List NodeId} (new : List NodeId) (h : f.Shows l) (hl : l.Sound) (hp : l.Has p)
    (hold : l.children p = before ++ (old ++ after)) (hlist : list = before ++ (new ++ after))
    (hfree : ∀ c ∈ new, l.Free c) (hsize : g.size = f.size) (hnode : ∀ i, g.node? i = f.node? i)
    (hfirst : ∀ i, g.first? i = if i = p then list.head? else f.first? i)
    (hlast : ∀ i, g.last? i = if i = p then list.getLast? else f.last? i)
    (hbefore : ∀ b, before.getLast? = some b → g.next? b = (new ++ after).head?)
    (hlinked : g.Linked after.head? new) (hgone : ∀ c ∈ old, g.next? c = none)
    (hsame : ∀ i, before.getLast? ≠ some i → i ∉ old → i ∉ new → g.next? i = f.next? i) :
    g.Shows (l.put p list) := by
  have hnodup := hl.nodup p
  rw [hold] at hnodup
  obtain ⟨hfront, hback, happart⟩ := List.nodup_append.mp hnodup
  obtain ⟨-, -, happart'⟩ := List.nodup_append.mp hback
  have hnewOut : ∀ c ∈ new, c ∉ before ++ (old ++ after) := by
    intro c hc hin
    rw [← hold] at hin
    exact Family.mem_children (hfree c hc) hin
  have hlinks : f.Linked none (before ++ (old ++ after)) := hold ▸ h.linked p
  rw [linked_append, linked_append] at hlinks
  obtain ⟨hleft, -, hright⟩ := hlinks
  have hrightSame : g.Linked none after := by
    apply hright.congr
    intro c hc
    apply hsame
    · intro heq
      exact happart c (List.mem_of_getLast? heq) c (List.mem_append_right _ hc) rfl
    · intro hin
      exact happart' c hin c hc rfl
    · intro hin
      exact hnewOut c hin (by simp [hc])
  have hleftSame : g.Linked (new ++ after).head? before := by
    rcases List.eq_nil_or_concat before with rfl | ⟨init, b, rfl⟩
    · trivial
    · rw [List.concat_eq_append] at *
      apply hleft.relink
      · intro c hc
        apply hsame
        · intro heq
          have hbc : b = c := by simpa using heq
          exact (List.nodup_append.mp hfront).2.2 c hc b (by simp) hbc.symm
        · intro hin
          exact happart c (by simp [hc]) c (by simp [hin]) rfl
        · intro hin
          exact hnewOut c hin (by simp [hc])
      · exact hbefore b (by simp)
  apply h.put hl hp
  · intro c hc
    rw [hold]
    rw [hlist] at hc
    simp only [List.mem_append] at hc ⊢
    rcases hc with hc | hc | hc
    · exact Or.inl (Or.inl hc)
    · exact Or.inr (hfree c hc)
    · exact Or.inl (Or.inr (Or.inr hc))
  · exact hsize
  · exact hnode
  · exact hfirst
  · exact hlast
  · rw [hlist, linked_append, linked_append, Option.or_none, Option.or_none]
    exact ⟨hleftSame, hlinked, hrightSame⟩
  · intro i hi hout
    rw [hold] at hi
    rw [hlist] at hout
    simp only [List.mem_append, not_or] at hi hout
    exact hsame i (fun heq => hi.1 (List.mem_of_getLast? heq)) hi.2.1 hout.2.1
  · intro i hi hout
    rw [hold] at hi
    rw [hlist] at hout
    simp only [List.mem_append, not_or] at hi hout
    rcases hi with hi | hi | hi
    · exact absurd hi hout.1
    · exact hgone i hi
    · exact absurd hi hout.2.2

/-! ## Adding a child -/

theorem pushBack_eq :
    f.pushBack p c = (f.lead p (f.last? p) (some c)).setLast p (some c) := by
  rw [pushBack]
  cases f.last? p <;> rfl

theorem Shows.pushBack (h : f.Shows l) (hl : l.Sound) (hp : l.Has p) (hc : l.Free c) :
    (f.pushBack p c).Shows (l.put p (l.children p ++ [c])) := by
  have hsize : p.index < f.size := h.has.mp hp
  have hin : ∀ d ∈ l.children p, d.index < f.size := fun d hd => h.index_lt hl hd
  have hout : c ∉ l.children p := Family.mem_children hc
  have hnext : ∀ i, (f.pushBack p c).next? i
      = if (l.children p).getLast? = some i then some c else f.next? i := by
    intro i
    rw [pushBack_eq, h.last, next?_setLast, next?_lead hin]
  have hold : l.children p = l.children p ++ ([] ++ []) := by simp
  apply h.splice [c] hl hp hold rfl
  · intro d hd
    rwa [List.mem_singleton.mp hd]
  · simp [pushBack_eq]
  · intro i
    simp [pushBack_eq]
  · intro i
    have hfirst : f.first? p = (l.children p ++ []).head? := by rw [List.append_nil, h.first]
    rw [pushBack_eq, h.last, first?_setLast, first?_lead hsize hfirst, List.head?_append]
    rfl
  · intro i
    rw [pushBack_eq, last?_setLast (by simpa using hsize)]
    simp
  · intro b hb
    rw [hnext, if_pos hb]
    rfl
  · rw [Linked, hnext, if_neg fun heq => hout (List.mem_of_getLast? heq), h.free_next hc]
    exact ⟨rfl, trivial⟩
  · intro d hd
    cases hd
  · intro i hi _ _
    rw [hnext, if_neg hi]

theorem pushFront_eq : f.pushFront p c = ((f.setNext c (f.first? p)).setFirst p (some c)).setLastIf
    (f.last? p).isNone p (some c) := rfl

theorem Shows.pushFront (h : f.Shows l) (hl : l.Sound) (hp : l.Has p) (hc : l.Free c) :
    (f.pushFront p c).Shows (l.put p (c :: l.children p)) := by
  have hsize : p.index < f.size := h.has.mp hp
  have hsize' : c.index < f.size := h.has.mp hc.1
  have hnext : ∀ i, (f.pushFront p c).next? i = if i = c then f.first? p else f.next? i := by
    intro i
    rw [pushFront_eq, next?_setLastIf, next?_setFirst, next?_setNext hsize']
  have hold : l.children p = [] ++ ([] ++ l.children p) := rfl
  apply h.splice [c] hl hp hold rfl
  · intro d hd
    rwa [List.mem_singleton.mp hd]
  · simp [pushFront_eq]
  · intro i
    simp [pushFront_eq]
  · intro i
    simp [pushFront_eq, first?_setFirst, hsize]
  · intro i
    rw [pushFront_eq, last?_setLastIf (by simpa using hsize)]
    cases hchildren : l.children p <;> simp [h.last p, hchildren]
  · intro b hb
    cases hb
  · rw [Linked, hnext, if_pos rfl, h.first]
    exact ⟨rfl, trivial⟩
  · intro d hd
    cases hd
  · intro i _ _ hi
    rw [hnext, if_neg fun heq => hi (by simp [heq])]

theorem insertAfter_eq : f.insertAfter p c b
    = ((f.setNext c (f.next? b)).setNext b (some c)).setLastIf (f.last? p == some b) p (some c) :=
  rfl

theorem Shows.insertAfter (h : f.Shows l) (hl : l.Sound) (hb : b ∈ l.children p)
    (hc : l.Free c) :
    (f.insertAfter p c b).Shows (l.put p (Family.behind b c (l.children p))) := by
  have hp : l.Has p := Family.has_of_mem hb
  have hsize : p.index < f.size := h.has.mp hp
  have hsize' : c.index < f.size := h.has.mp hc.1
  have hsize'' : b.index < f.size := h.index_lt hl hb
  obtain ⟨before, after, hsplit, hbefore, hafter⟩ := hl.split hb
  have hcb : c ≠ b := by
    rintro rfl
    exact Family.mem_children hc hb
  have hlinks := h.linked p
  rw [hsplit, linked_append, Linked, Option.or_none, Option.or_none] at hlinks
  have hnext : ∀ i, (f.insertAfter p c b).next? i
      = if i = b then some c else if i = c then after.head? else f.next? i := by
    intro i
    rw [insertAfter_eq, next?_setLastIf, next?_setNext (by simpa using hsize''),
      next?_setNext hsize', hlinks.2.1]
  have hold : l.children p = (before ++ [b]) ++ ([] ++ after) := by simp [hsplit]
  have hlist : Family.behind b c (l.children p) = (before ++ [b]) ++ ([c] ++ after) := by
    rw [hsplit, Family.behind_append hbefore hafter]
    simp
  apply h.splice [c] hl hp hold hlist
  · intro d hd
    rwa [List.mem_singleton.mp hd]
  · simp [insertAfter_eq]
  · intro i
    simp [insertAfter_eq]
  · intro i
    rw [insertAfter_eq, first?_setLastIf, first?_setNext, first?_setNext, hlist]
    by_cases hi : i = p
    · simp [hi, h.first, hsplit]
    · simp [hi]
  · intro i
    have hend : ((before ++ [b]) ++ [c]).getLast? = some c := by simp
    rw [insertAfter_eq, last?_setLastIf (by simpa using hsize), last?_setNext, last?_setNext,
      last?_setNext, last?_setNext, hlist, h.last p, hsplit, ← hend, getLast?_around hafter,
      List.append_assoc (before ++ [b])]
  · intro d hd
    have hd : b = d := by simpa using hd
    rw [hnext, if_pos hd.symm]
    rfl
  · rw [Linked, hnext, if_neg hcb, if_pos rfl]
    exact ⟨rfl, trivial⟩
  · intro d hd
    cases hd
  · intro i hi _ hic
    have hib : i ≠ b := by
      rintro rfl
      simp at hi
    have hic : i ≠ c := by simpa using hic
    rw [hnext, if_neg hib, if_neg hic]

/-! ## Taking out a child and putting one in its place -/

theorem childBefore?_around (hchildren : f.children p = before ++ c :: after)
    (hbefore : c ∉ before) : f.childBefore? p c = before.getLast? := by
  have htake : (before ++ c :: after).takeWhile (· != c) = before := by
    rw [List.takeWhile_append_of_pos]
    · simp
    · intro d hd
      have hne : d ≠ c := by
        rintro rfl
        exact hbefore hd
      simpa using hne
  rw [childBefore?, hchildren, htake]

/-- The store without a child of a parent. -/
def without (f : Forest) (p c : NodeId) : Forest :=
  ((f.lead p (f.childBefore? p c) (f.next? c)).setLastIf (f.last? p == some c) p
    (f.childBefore? p c)).setNext c none

theorem remove?_eq :
    f.remove? p c = if (f.children p).contains c then some (f.without p c) else none := by
  rw [remove?, without]
  cases f.childBefore? p c <;> rfl

theorem Shows.without (h : f.Shows l) (hl : l.Sound) (hc : c ∈ l.children p) :
    (f.without p c).Shows (l.put p ((l.children p).erase c)) := by
  have hp : l.Has p := Family.has_of_mem hc
  have hsize : p.index < f.size := h.has.mp hp
  have hsize' : c.index < f.size := h.index_lt hl hc
  obtain ⟨before, after, hsplit, hbefore, hafter⟩ := hl.split hc
  have hchildren : f.children p = before ++ c :: after := by rw [h.children hl, hsplit]
  have hin : ∀ d ∈ before, d.index < f.size :=
    fun d hd => h.index_lt hl (by rw [hsplit]; simp [hd])
  have hlinks := h.linked p
  rw [hsplit, linked_append, Linked, Option.or_none, Option.or_none] at hlinks
  have hnext : ∀ i, (f.without p c).next? i = if i = c then none
      else if before.getLast? = some i then after.head? else f.next? i := by
    intro i
    rw [Forest.without, next?_setNext (by simpa using hsize'), next?_setLastIf,
      childBefore?_around hchildren hbefore, next?_lead hin, hlinks.2.1]
  have hold : l.children p = before ++ ([c] ++ after) := hsplit
  have hlist : (l.children p).erase c = before ++ ([] ++ after) := by
    rw [hsplit, Family.erase_around hbefore, List.nil_append]
  apply h.splice [] hl hp hold hlist
  · intro d hd
    cases hd
  · simp [Forest.without]
  · intro i
    simp [Forest.without]
  · intro i
    have hfirst : f.first? p = (before ++ c :: after).head? := by rw [h.first, hsplit]
    rw [Forest.without, first?_setNext, first?_setLastIf, childBefore?_around hchildren hbefore,
      first?_lead hsize hfirst, hlinks.2.1, hlist, List.head?_append, List.nil_append]
  · intro i
    rw [Forest.without, last?_setNext, last?_setLastIf (by simpa using hsize), last?_lead,
      last?_lead, childBefore?_around hchildren hbefore, hlist, List.nil_append, h.last p, hsplit,
      getLast?_around hafter]
  · intro b hb
    have hne : b ≠ c := by
      rintro rfl
      exact hbefore (List.mem_of_getLast? hb)
    rw [hnext, if_neg hne, if_pos hb, List.nil_append]
  · trivial
  · intro d hd
    rw [hnext, if_pos (List.mem_singleton.mp hd)]
  · intro i hi hic _
    have hne : i ≠ c := by simpa using hic
    rw [hnext, if_neg hne, if_neg hi]

/-- The store with another node in the place of a child. -/
def withOther (f : Forest) (p c o : NodeId) : Forest :=
  (((f.setNext o (f.next? c)).lead p (f.childBefore? p c) (some o)).setLastIf
    (f.last? p == some c) p (some o)).setNext c none

theorem replace?_eq {o : NodeId} :
    f.replace? p c o = if (f.children p).contains c then some (f.withOther p c o) else none := by
  rw [replace?, withOther]
  cases f.childBefore? p c <;> rfl

theorem Shows.withOther {o : NodeId} (h : f.Shows l) (hl : l.Sound) (hc : c ∈ l.children p)
    (ho : l.Free o) : (f.withOther p c o).Shows (l.put p ((l.children p).replace c o)) := by
  have hp : l.Has p := Family.has_of_mem hc
  have hsize : p.index < f.size := h.has.mp hp
  have hsize' : c.index < f.size := h.index_lt hl hc
  have hsize'' : o.index < f.size := h.has.mp ho.1
  obtain ⟨before, after, hsplit, hbefore, hafter⟩ := hl.split hc
  have hchildren : f.children p = before ++ c :: after := by rw [h.children hl, hsplit]
  have hin : ∀ d ∈ before, d.index < f.size :=
    fun d hd => h.index_lt hl (by rw [hsplit]; simp [hd])
  have hout : o ∉ before ++ c :: after := by
    rw [← hsplit]
    exact Family.mem_children ho
  have hoc : o ≠ c := by
    rintro rfl
    simp at hout
  have hlinks := h.linked p
  rw [hsplit, linked_append, Linked, Option.or_none, Option.or_none] at hlinks
  have hnext : ∀ i, (f.withOther p c o).next? i = if i = c then none
      else if before.getLast? = some i then some o
      else if i = o then after.head? else f.next? i := by
    intro i
    rw [Forest.withOther, next?_setNext (by simpa using hsize'), next?_setLastIf,
      childBefore?_around hchildren hbefore, next?_lead (by simpa using hin),
      next?_setNext hsize'', hlinks.2.1]
  have hold : l.children p = before ++ ([c] ++ after) := hsplit
  have hlist : (l.children p).replace c o = before ++ ([o] ++ after) := by
    rw [hsplit, Family.replace_around hbefore]
    rfl
  apply h.splice [o] hl hp hold hlist
  · intro d hd
    rwa [List.mem_singleton.mp hd]
  · simp [Forest.withOther]
  · intro i
    simp [Forest.withOther]
  · intro i
    have hfirst : (f.setNext o (f.next? c)).first? p = (before ++ c :: after).head? := by
      rw [first?_setNext, h.first, hsplit]
    rw [Forest.withOther, first?_setNext, first?_setLastIf,
      childBefore?_around hchildren hbefore, first?_lead (by simpa using hsize) hfirst,
      first?_setNext, hlist, List.head?_append]
    rfl
  · intro i
    have hend : (before ++ [o]).getLast? = some o := by simp
    rw [Forest.withOther, last?_setNext, last?_setLastIf (by simpa using hsize), last?_lead,
      last?_lead, last?_setNext, last?_setNext, hlist, h.last p, hsplit, ← hend,
      getLast?_around hafter, List.append_assoc]
  · intro b hb
    have hne : b ≠ c := by
      rintro rfl
      exact hbefore (List.mem_of_getLast? hb)
    rw [hnext, if_neg hne, if_pos hb]
    rfl
  · have hne : before.getLast? ≠ some o := by
      intro heq
      exact hout (List.mem_append_left _ (List.mem_of_getLast? heq))
    rw [Linked, hnext, if_neg hoc, if_neg hne, if_pos rfl]
    exact ⟨rfl, trivial⟩
  · intro d hd
    rw [hnext, if_pos (List.mem_singleton.mp hd)]
  · intro i hi hic hio
    have hne : i ≠ c := by simpa using hic
    have hne' : i ≠ o := by simpa using hio
    rw [hnext, if_neg hne, if_neg hi, if_neg hne']

end Forest
end ScriptPress
