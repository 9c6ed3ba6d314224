import Mathlib.Data.List.Forall2
import ScriptPress.Proofs.Shape.Nodes

/-! # Property bags

A bag of properties is what was written into it. Its history tells which kinds it holds, with which
values, and in which order it lists them: by the first put since the kind was last removed. A copy
begins with the history of the bag it is a copy of, and from then on each of the two has its own.
-/
namespace ScriptPress
namespace Properties

/-- A change of one bag. -/
inductive Write where
  | put (kind : PropertyKind) (value : PropertyValue)
  | remove (kind : PropertyKind)
  deriving Repr, DecidableEq

def Write.kind : Write → PropertyKind
  | put kind _ | remove kind => kind

def write (p : Properties) : Write → Properties
  | .put kind value => p.put kind value
  | .remove kind => p.remove kind

/-- The kinds in a bag, in the order of its entries. -/
def kinds (p : Properties) : List PropertyKind := p.entries.map Prod.fst

/-! ## Histories -/

/-- The last of some writes to a kind puts a value. -/
def Holds (writes : List Write) (kind : PropertyKind) (value : PropertyValue) : Prop :=
  ∃ before after, writes = before ++ .put kind value :: after ∧ ∀ w ∈ after, w.kind ≠ kind

/-- The first put of a kind since it was last removed stands behind so many writes. -/
def Since (writes : List Write) (kind : PropertyKind) (time : Nat) : Prop :=
  ∃ before value after, writes = before ++ .put kind value :: after ∧ before.length = time
    ∧ (∀ old, ¬ Holds before kind old) ∧ .remove kind ∉ after

variable {writes : List Write} {w : Write} {k : PropertyKind} {v : PropertyValue} {time : Nat}
  {p : Properties}

theorem not_holds_nil : ¬ Holds [] k v := by
  rintro ⟨before, after, h, -⟩
  simp at h

theorem not_since_nil : ¬ Since [] k time := by
  rintro ⟨before, value, after, h, -⟩
  simp at h

/-- A write among some with one more behind them is the last one or stands before it. -/
theorem concat_split {before after : List Write} {x : Write}
    (h : writes ++ [w] = before ++ x :: after) : (writes = before ∧ w = x ∧ after = [])
      ∨ ∃ init, after = init ++ [w] ∧ writes = before ++ x :: init := by
  rcases List.eq_nil_or_concat after with rfl | ⟨init, last, rfl⟩
  · obtain ⟨hbefore, hlast⟩ := List.append_inj' h rfl
    exact .inl ⟨hbefore, List.singleton_inj.mp hlast, rfl⟩
  · rw [List.concat_eq_append, ← List.cons_append, ← List.append_assoc] at h
    obtain ⟨hbefore, hlast⟩ := List.append_inj' h rfl
    obtain rfl := List.singleton_inj.mp hlast
    exact .inr ⟨init, List.concat_eq_append, hbefore⟩

/-- A write decides about its own kind and leaves the others as they were. -/
theorem holds_concat :
    Holds (writes ++ [w]) k v ↔ w = .put k v ∨ w.kind ≠ k ∧ Holds writes k v := by
  constructor
  · rintro ⟨before, after, h, hafter⟩
    rcases concat_split h with ⟨-, hw, -⟩ | ⟨init, rfl, hwrites⟩
    · exact .inl hw
    · rw [List.forall_mem_append, List.forall_mem_singleton] at hafter
      exact .inr ⟨hafter.2, before, init, hwrites, hafter.1⟩
  · rintro (rfl | ⟨hkind, before, after, rfl, hafter⟩)
    · exact ⟨writes, [], rfl, by simp⟩
    · refine ⟨before, after ++ [w], by simp, ?_⟩
      rw [List.forall_mem_append, List.forall_mem_singleton]
      exact ⟨hafter, hkind⟩

/-- A kind has its place from the put that finds it absent until it is removed. -/
theorem since_concat : Since (writes ++ [w]) k time
    ↔ (∃ v, w = .put k v) ∧ time = writes.length ∧ (∀ old, ¬ Holds writes k old)
      ∨ w ≠ .remove k ∧ Since writes k time := by
  constructor
  · rintro ⟨before, value, after, h, hlength, hbefore, hafter⟩
    rcases concat_split h with ⟨rfl, hw, -⟩ | ⟨init, rfl, hwrites⟩
    · exact .inl ⟨⟨value, hw⟩, hlength.symm, hbefore⟩
    · rw [List.mem_append, not_or, List.mem_singleton] at hafter
      exact .inr ⟨Ne.symm hafter.2, before, value, init, hwrites, hlength, hbefore, hafter.1⟩
  · rintro (⟨⟨value, rfl⟩, htime, hnone⟩
      | ⟨hw, before, value, after, rfl, hlength, hbefore, hafter⟩)
    · exact ⟨writes, value, [], rfl, htime.symm, hnone, by simp⟩
    · refine ⟨before, value, after ++ [w], by simp, hlength, hbefore, ?_⟩
      rw [List.mem_append, not_or, List.mem_singleton]
      exact ⟨hafter, Ne.symm hw⟩

/-- A removal takes the place of one kind away. -/
theorem since_remove {other : PropertyKind} :
    Since (writes ++ [.remove k]) other time ↔ k ≠ other ∧ Since writes other time := by
  rw [since_concat]
  simp

theorem Since.lt_length (h : Since writes k time) : time < writes.length := by
  obtain ⟨before, value, after, rfl, rfl, -⟩ := h
  rw [List.length_append, List.length_cons]
  omega

/-! ## Entries -/

/-- A new kind comes to stand behind the others; one that is there stays where it is. -/
theorem map_putIn (entries : List (PropertyKind × PropertyValue)) :
    (putIn k v entries).map Prod.fst
      = if k ∈ entries.map Prod.fst then entries.map Prod.fst else entries.map Prod.fst ++ [k] := by
  induction entries with
  | nil => rfl
  | cons entry rest ih =>
    rw [putIn]
    by_cases hentry : entry.1 = k
    · rw [if_pos hentry, if_pos (by simp [hentry]), List.map_cons, List.map_cons, hentry]
    · rw [if_neg hentry, List.map_cons, ih]
      have hmem : k ∈ (entry :: rest).map Prod.fst ↔ k ∈ rest.map Prod.fst := by
        rw [List.map_cons, List.mem_cons, or_iff_right (Ne.symm hentry)]
      by_cases hrest : k ∈ rest.map Prod.fst
      · rw [if_pos hrest, if_pos (hmem.mpr hrest), List.map_cons]
      · rw [if_neg hrest, if_neg (mt hmem.mp hrest), List.map_cons, List.cons_append]

theorem kinds_put : (p.put k v).kinds = if k ∈ p.kinds then p.kinds else p.kinds ++ [k] :=
  map_putIn p.entries

theorem nodup_kinds_put (h : p.kinds.Nodup) : (p.put k v).kinds.Nodup := by
  rw [kinds_put]
  split
  · exact h
  · next habsent =>
    refine List.nodup_append.mpr ⟨h, List.pairwise_singleton _ k, fun a ha b hb heq => ?_⟩
    rw [heq, List.mem_singleton.mp hb] at ha
    exact habsent ha

theorem kinds_remove : (p.remove k).kinds = p.kinds.erase k := by
  obtain ⟨entries⟩ := p
  simp only [kinds, remove]
  induction entries with
  | nil => rfl
  | cons entry rest ih =>
    by_cases hentry : entry.1 = k
    · rw [List.eraseP_cons_of_pos (by simpa using hentry), List.map_cons, hentry,
        List.erase_cons_head]
    · rw [List.eraseP_cons_of_neg (by simpa using hentry), List.map_cons, List.map_cons, ih,
        List.erase_cons_tail (by simpa using hentry)]

theorem mem_kinds : k ∈ p.kinds ↔ ∃ v, p.get? k = some v := by
  rw [← Option.isSome_iff_exists, get?, Option.isSome_map, List.find?_isSome, kinds, List.mem_map]
  simp only [beq_iff_eq]

/-- Where no kind stands twice, an entry is what its kind has for a value. -/
theorem mem_entries (h : p.kinds.Nodup) : (k, v) ∈ p.entries ↔ p.get? k = some v := by
  obtain ⟨entries⟩ := p
  simp only [kinds, get?] at h ⊢
  induction entries with
  | nil => simp
  | cons entry rest ih =>
    obtain ⟨hfirst, hrest⟩ := List.nodup_cons.mp h
    rw [List.find?_cons, List.mem_cons]
    by_cases hentry : entry.1 = k
    · subst hentry
      have hnone : (entry.1, v) ∉ rest := fun hmem =>
        hfirst (List.mem_map.mpr ⟨_, hmem, rfl⟩)
      simp [hnone, Prod.ext_iff, eq_comm]
    · have hne : (k, v) ≠ entry := fun heq => hentry (heq ▸ rfl)
      rw [or_iff_right hne, ih hrest, beq_false_of_ne hentry]

/-- A removal takes one kind away, where no kind stands twice. -/
theorem get?_remove (h : p.kinds.Nodup) (other : PropertyKind) :
    (p.remove k).get? other = if other = k then none else p.get? other := by
  split
  · next heq =>
    subst heq
    have hgone : other ∉ (p.remove other).kinds := by
      rw [kinds_remove]
      exact h.not_mem_erase
    rw [mem_kinds] at hgone
    exact Option.eq_none_iff_forall_ne_some.mpr fun v hv => hgone ⟨v, hv⟩
  · next hne =>
    obtain ⟨entries⟩ := p
    simp only [get?, remove]
    congr 1
    clear h
    induction entries with
    | nil => rfl
    | cons entry rest ih =>
      by_cases hentry : entry.1 = k
      · rw [List.eraseP_cons_of_pos (by simpa using hentry), List.find?_cons_of_neg]
        simpa [hentry] using Ne.symm hne
      · rw [List.eraseP_cons_of_neg (by simpa using hentry), List.find?_cons, List.find?_cons, ih]

/-! ## Typed values -/

/-- What the getters of each type give for one kind. -/
structure Typed where
  flag : Bool := false
  number? : Option Int := none
  text? : Option String := none
  node? : Option NodeId := none
  nodes : List NodeId := []
  texts : List String := []
  deriving Repr, DecidableEq

/-- A value of one type, and the empty values of the others. -/
def Typed.of : PropertyValue → Typed
  | .flag on => { flag := on }
  | .number n => { number? := some n }
  | .text s => { text? := some s }
  | .node id => { node? := some id }
  | .nodes ids => { nodes := ids }
  | .texts ss => { texts := ss }

def typed (p : Properties) (kind : PropertyKind) : Typed where
  flag := p.flag kind
  number? := p.number? kind
  text? := p.text? kind
  node? := p.node? kind
  nodes := p.nodes kind
  texts := p.texts kind

theorem typed_eq : p.typed k = ((p.get? k).map Typed.of).getD {} := by
  simp only [typed, flag, number?, text?, node?, nodes, texts]
  cases p.get? k with
  | none => rfl
  | some v =>
    cases v with
    | flag on => cases on <;> rfl
    | number _ | text _ | node _ | nodes _ | texts _ => rfl

/-! ## One bag -/

/-- A bag is what some writes say: no kind stands in it twice, each has the value that was put last,
and kinds stand in the order in which they came to stay. -/
structure Follows (p : Properties) (writes : List Write) : Prop where
  unique : p.kinds.Nodup
  value : ∀ k v, p.get? k = some v ↔ Holds writes k v
  listed : ∀ k, k ∈ p.kinds ↔ ∃ time, Since writes k time
  order : p.kinds.Pairwise fun a b => ∀ s t, Since writes a s → Since writes b t → s < t

theorem follows_nil : Follows {} [] where
  unique := List.nodup_nil
  value _ _ := iff_of_false nofun not_holds_nil
  listed _ := iff_of_false nofun fun ⟨_, h⟩ => not_since_nil h
  order := .nil

namespace Follows

theorem absent (h : p.Follows writes) : k ∉ p.kinds ↔ ∀ old, ¬ Holds writes k old := by
  simp only [mem_kinds, h.value, not_exists]

/-- A put gives a kind that was absent its place and leaves all other places alone. -/
theorem since_put (h : p.Follows writes) {other : PropertyKind} :
    Since (writes ++ [.put k v]) other time
      ↔ (k = other ∧ time = writes.length ∧ k ∉ p.kinds) ∨ Since writes other time := by
  rw [since_concat, ← h.absent]
  simp only [Write.put.injEq, exists_and_left, exists_eq', and_true, ne_eq, reduceCtorEq,
    not_false_eq_true, true_and]
  exact or_congr_left (and_congr_right fun heq => by rw [heq])

/-- A kind that is there keeps its place. -/
theorem since_put_of_mem (h : p.Follows writes) (hmem : k ∈ p.kinds) {other : PropertyKind} :
    Since (writes ++ [.put k v]) other time ↔ Since writes other time := by
  rw [h.since_put]
  exact or_iff_right fun hnew => hnew.2.2 hmem

/-- A kind that was there before an absent one was put keeps its place. -/
theorem since_put_of_absent (h : p.Follows writes) (habsent : k ∉ p.kinds) {other : PropertyKind}
    (hother : other ∈ p.kinds) :
    Since (writes ++ [.put k v]) other time ↔ Since writes other time := by
  rw [h.since_put]
  exact or_iff_right fun hnew => habsent (hnew.1 ▸ hother)

/-- The place of an absent kind that is put is behind all writes so far. -/
theorem since_put_self (h : p.Follows writes) (habsent : k ∉ p.kinds) :
    Since (writes ++ [.put k v]) k time ↔ time = writes.length := by
  rw [h.since_put]
  refine ⟨?_, fun htime => .inl ⟨rfl, htime, habsent⟩⟩
  rintro (⟨-, htime, -⟩ | hsince)
  · exact htime
  · exact absurd ((h.listed k).mpr ⟨time, hsince⟩) habsent

theorem order_put (h : p.Follows writes) : (p.put k v).kinds.Pairwise fun a b => ∀ s t,
    Since (writes ++ [.put k v]) a s → Since (writes ++ [.put k v]) b t → s < t := by
  rw [kinds_put]
  split
  · next hmem =>
    refine h.order.imp fun hab s t hs ht => ?_
    exact hab s t ((h.since_put_of_mem hmem).mp hs) ((h.since_put_of_mem hmem).mp ht)
  · next habsent =>
    refine List.pairwise_append.mpr ⟨?_, List.pairwise_singleton _ _, ?_⟩
    · refine h.order.imp_of_mem fun ha hb hab s t hs ht => ?_
      exact hab s t ((h.since_put_of_absent habsent ha).mp hs)
        ((h.since_put_of_absent habsent hb).mp ht)
    · intro a ha b hb s t hs ht
      obtain rfl := List.mem_singleton.mp hb
      obtain rfl := (h.since_put_self habsent).mp ht
      exact ((h.since_put_of_absent habsent ha).mp hs).lt_length

theorem put (h : p.Follows writes) : (p.put k v).Follows (writes ++ [.put k v]) where
  unique := nodup_kinds_put h.unique
  value other value := by
    rw [get?_put, holds_concat, ← h.value]
    by_cases heq : other = k
    · simp [heq, Write.kind, eq_comm]
    · simp [heq, Ne.symm heq, Write.kind]
  listed other := by
    rw [kinds_put]
    simp only [h.since_put, exists_or, ← h.listed]
    split
    · next hmem => simp [hmem]
    · next habsent => simp [habsent, or_comm, eq_comm]
  order := h.order_put

theorem remove (h : p.Follows writes) : (p.remove k).Follows (writes ++ [.remove k]) where
  unique := by
    rw [kinds_remove]
    exact h.unique.erase k
  value other value := by
    rw [get?_remove h.unique, holds_concat, ← h.value]
    by_cases heq : other = k
    · simp [heq, Write.kind]
    · simp [heq, Ne.symm heq, Write.kind]
  listed other := by
    simp only [kinds_remove, h.unique.mem_erase_iff, h.listed, since_remove, exists_and_left]
    exact and_congr_left fun _ => ne_comm
  order := by
    rw [kinds_remove]
    refine (h.order.sublist List.erase_sublist).imp fun hab s t hs ht => ?_
    exact hab s t (since_remove.mp hs).2 (since_remove.mp ht).2

/-- One more write is one more write of the history. -/
theorem write (h : p.Follows writes) (w : Write) : (p.write w).Follows (writes ++ [w]) := by
  cases w with
  | put kind value => exact h.put
  | remove kind => exact h.remove

/-- The typed getters give the value put last when it has their type. -/
theorem typed (h : p.Follows writes) (hv : Holds writes k v) : p.typed k = .of v := by
  rw [typed_eq, (h.value k v).mpr hv]
  rfl

theorem typed_absent (h : p.Follows writes) (hnone : ∀ v, ¬ Holds writes k v) :
    p.typed k = {} := by
  have hget : p.get? k = none :=
    Option.eq_none_iff_forall_ne_some.mpr fun v hv => hnone v ((h.value k v).mp hv)
  rw [typed_eq, hget]
  rfl

end Follows
end Properties

/-! ## Many bags -/

namespace Bags
open Properties

/-- A step on numbered bags: a change of one, or a copy of one, which gets the next number. -/
inductive Step where
  | write (bag : Nat) (w : Write)
  | clone (bag : Nat)
  deriving Repr, DecidableEq

/-- A step, whatever is kept of each bag. -/
def step {α : Type} (change : α → Write → α) (bags : List α) : Step → List α
  | .write i w => bags.modify i (change · w)
  | .clone i => bags ++ bags[i]?.toList

/-- The bags after some steps, from a number of empty ones on. -/
def after (count : Nat) (steps : List Step) : List Properties :=
  steps.foldl (step Properties.write) (List.replicate count {})

/-- The writes behind each bag, those of the bag it is a copy of among them. -/
def histories (count : Nat) (steps : List Step) : List (List Write) :=
  steps.foldl (step fun writes w => writes ++ [w]) (List.replicate count [])

variable {α β : Type} {R : α → β → Prop} {as : List α} {bs : List β} {change : α → Write → α}
  {change' : β → Write → β}

/-- What ties two views of each bag together is kept by a step that keeps it in one bag. -/
theorem forall₂_step (hchange : ∀ a b w, R a b → R (change a w) (change' b w))
    (h : List.Forall₂ R as bs) (s : Step) :
    List.Forall₂ R (step change as s) (step change' bs s) := by
  cases s with
  | write i w =>
    simp only [step]
    induction h generalizing i with
    | nil => cases i <;> exact .nil
    | cons hab hmore ih =>
      cases i with
      | zero => exact .cons (hchange _ _ w hab) hmore
      | succ i => exact .cons hab (ih i)
  | clone i =>
    refine List.rel_append h ?_
    induction h generalizing i with
    | nil => exact .nil
    | cons hab hmore ih =>
      cases i with
      | zero => exact .cons hab .nil
      | succ i => exact ih i

theorem forall₂_steps (hchange : ∀ a b w, R a b → R (change a w) (change' b w)) (steps : List Step)
    (h : List.Forall₂ R as bs) :
    List.Forall₂ R (steps.foldl (step change) as) (steps.foldl (step change') bs) := by
  induction steps generalizing as bs with
  | nil => exact h
  | cons s steps ih => exact ih (forall₂_step hchange h s)

/-- After any steps each bag is what its history says. -/
theorem forall₂_follows (count : Nat) (steps : List Step) :
    List.Forall₂ Follows (after count steps) (histories count steps) := by
  refine forall₂_steps (fun p writes w h => h.write w) steps ?_
  induction count with
  | zero => exact .nil
  | succ count ih => exact .cons follows_nil ih

/-- A step leaves the bags alone that it does not write to. -/
theorem step_other {i : Nat} (s : Step) (hi : i < as.length) (hs : ∀ w, s ≠ .write i w) :
    (step change as s)[i]? = as[i]? := by
  cases s with
  | write j w =>
    have hne : j ≠ i := fun heq => hs w (by rw [heq])
    exact List.getElem?_modify_ne _ _ hne
  | clone j => exact List.getElem?_append_left hi

/-- Any number of bags under writes and copies behave as maps that keep the order of their kinds. A
bag has one entry at most for each kind, with the value that was put last unless the kind was
removed since; its kinds stand in the order of the first puts since they were last removed; and
each typed getter gives that value when it has its type, and its empty value otherwise. A step on
one bag changes no other. -/
theorem bags_follow (count : Nat) (steps : List Step) :
    List.Forall₂ (fun p writes => p.Follows writes
        ∧ (∀ k v, (k, v) ∈ p.entries ↔ Holds writes k v)
        ∧ (∀ k v, Holds writes k v → p.typed k = .of v)
        ∧ ∀ k, (∀ v, ¬ Holds writes k v) → p.typed k = {})
      (after count steps) (histories count steps)
      ∧ ∀ (s : Step) (i : Nat), i < (after count steps).length → (∀ w, s ≠ .write i w) →
        (after count (steps ++ [s]))[i]? = (after count steps)[i]? := by
  constructor
  · refine (forall₂_follows count steps).imp fun p writes h => ?_
    refine ⟨h, fun k v => ?_, fun k v => h.typed, fun k => h.typed_absent⟩
    rw [← h.value]
    exact mem_entries h.unique
  · intro s i hi hs
    rw [after, List.foldl_append]
    exact step_other s hi hs

/-- The copy has a kind that is removed from the bag and comes back to its end. -/
example : (after 1 [.write 0 (.put .label (.text "a")), .write 0 (.put .isNumber (.flag true)),
      .clone 0, .write 0 (.remove .label), .write 0 (.put .isNumber (.flag false)),
      .write 0 (.put .label (.text "b"))]).map (·.entries)
    = [[(.isNumber, .flag false), (.label, .text "b")],
      [(.label, .text "a"), (.isNumber, .flag true)]] := by decide

end Bags
end ScriptPress
