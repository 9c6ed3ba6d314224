import ScriptPress.Proofs.Lists.Showing

/-! # Edits of linked stores

An edit of a store that shows a family gives a store that shows the family with the same edit, and
the same answer. So the lists after any number of edits are those that the edits say.
-/
namespace ScriptPress
namespace Forest

variable {f : Forest} {l : Family}

theorem Shows.contains (h : f.Shows l) (hl : l.Sound) (p c : NodeId) :
    (f.children p).contains c = decide (c ∈ l.children p) := by
  rw [h.children hl]
  exact List.contains_eq_mem c _

/-- One edit gives the answer that the lists tell, and shows the lists it says. -/
theorem Shows.edit (h : f.Shows l) (hl : l.Sound) {e : Edit} (he : l.Allows e) :
    (f.edit e).1 = (l.edit e).1 ∧ (f.edit e).2.Shows (l.edit e).2 := by
  cases e with
  | alloc n =>
    constructor
    · exact congrArg (fun k => Edit.Answer.made ⟨k⟩) h.size
    · exact h.add n
  | clone id =>
    constructor
    · exact congrArg (fun k => Edit.Answer.made ⟨k⟩) h.size
    · rw [Forest.edit, Family.edit, clone, h.node]
      exact h.add _
  | pushBack p c =>
    obtain ⟨hp, hc⟩ := he
    exact ⟨rfl, h.pushBack hl hp hc⟩
  | pushFront p c =>
    obtain ⟨hp, hc⟩ := he
    exact ⟨rfl, h.pushFront hl hp hc⟩
  | insertAfter p c b =>
    obtain ⟨hb, hc⟩ := he
    exact ⟨rfl, h.insertAfter hl hb hc⟩
  | remove p c =>
    rw [Forest.edit, Family.edit, remove?_eq, h.contains hl]
    by_cases hc : c ∈ l.children p
    · simp only [hc, decide_true, if_true, true_and]
      exact h.without hl hc
    · simp only [hc, decide_false, if_false]
      exact ⟨rfl, h⟩
  | replace p c o =>
    obtain ⟨-, -, ho⟩ := he
    rw [Forest.edit, Family.edit, replace?_eq, h.contains hl]
    by_cases hc : c ∈ l.children p
    · simp only [hc, decide_true, if_true, true_and]
      exact h.withOther hl hc ho
    · simp only [hc, decide_false, if_false]
      exact ⟨rfl, h⟩

/-- The answers to some edits are those that the lists tell, and the store shows the lists after
them. -/
theorem Shows.edits (h : f.Shows l) (hl : l.Sound) {es : List Edit} (hes : l.AllowsAll es) :
    (f.edits es).1 = (l.edits es).1 ∧ (f.edits es).2.Shows (l.edits es).2
      ∧ (l.edits es).2.Sound := by
  induction es generalizing f l with
  | nil => exact ⟨rfl, h, hl⟩
  | cons e rest ih =>
    obtain ⟨he, hrest⟩ := hes
    obtain ⟨hanswer, hshows⟩ := h.edit hl he
    obtain ⟨hanswers, hend⟩ := ih hshows (hl.edit he) hrest
    rw [Forest.edits, Family.edits, hanswer, hanswers]
    exact ⟨rfl, hend⟩

/-- A store that was edited from the empty one on keeps lists of children. Each edit gives the
answer that the lists tell and changes the list that it says, and nothing else: the nodes with
their data, and the children of each in order. The first and the last child of a node are the ends
of its list, the last child has no next sibling, no node is in a list twice or in two lists, and a
node in none has no next sibling. -/
theorem edits_list_children {es : List Edit} (hes : Family.AllowsAll {} es) :
    let f := (edits {} es).2
    let l := (Family.edits {} es).2
    (edits {} es).1 = (Family.edits {} es).1 ∧ f.size = l.members.length
      ∧ (∀ i, f.node? i = l.node? i ∧ f.children i = l.children i
        ∧ f.first? i = (f.children i).head? ∧ f.last? i = (f.children i).getLast?
        ∧ (∀ c, f.last? i = some c → f.next? c = none) ∧ (f.children i).Nodup
        ∧ ((∀ p, i ∉ f.children p) → f.next? i = none))
      ∧ ∀ p q c, c ∈ f.children p → c ∈ f.children q → p = q := by
  intro f l
  obtain ⟨hanswers, hshows, hsound⟩ := shows_empty.edits Family.sound_empty hes
  have hchildren : ∀ i, f.children i = l.children i := fun i => hshows.children hsound
  refine ⟨hanswers, hshows.size, ?_, ?_⟩
  · intro i
    rw [hchildren i]
    refine ⟨hshows.node i, rfl, hshows.first i, hshows.last i, ?_, hsound.nodup i, ?_⟩
    · intro c hc
      rw [hshows.last, List.getLast?_eq_some_iff] at hc
      obtain ⟨before, hbefore⟩ := hc
      have hlinked := hshows.linked i
      rw [hbefore, linked_append] at hlinked
      exact hlinked.2.1
    · intro hi
      apply hshows.loose
      intro p hp
      exact hi p (by rwa [hchildren])
  · intro p q c hp hq
    rw [hchildren] at hp hq
    exact hsound.apart p q c hp hq

/-- All kinds of edits, one after the other, on the lists of two parents. -/
theorem edits_list_children_of_two :
    let es : List Edit := [.alloc { tag := .script, line := 1 }, .alloc { tag := .block, line := 2 },
      .alloc { tag := .identifier, line := 3, payload := .text "a" }, .clone ⟨2⟩, .clone ⟨2⟩,
      .pushBack ⟨0⟩ ⟨2⟩, .pushFront ⟨0⟩ ⟨1⟩, .insertAfter ⟨0⟩ ⟨3⟩ ⟨1⟩, .remove ⟨1⟩ ⟨2⟩,
      .replace ⟨0⟩ ⟨2⟩ ⟨4⟩, .pushBack ⟨1⟩ ⟨2⟩, .remove ⟨0⟩ ⟨1⟩]
    Family.AllowsAll {} es ∧ (edits {} es).2.children ⟨0⟩ = [⟨3⟩, ⟨4⟩]
      ∧ (edits {} es).2.children ⟨1⟩ = [⟨2⟩]
      ∧ (edits {} es).2.node? ⟨4⟩ = some { tag := .identifier, line := 3, payload := .text "a" } := by
  intro es
  have hes : Family.AllowsAll {} es := by decide
  have hlists := (edits_list_children hes).2.2.1
  refine ⟨hes, ?_, ?_, ?_⟩
  · rw [(hlists ⟨0⟩).2.1]
    decide
  · rw [(hlists ⟨1⟩).2.1]
    decide
  · rw [(hlists ⟨4⟩).1]
    decide

end Forest
end ScriptPress
