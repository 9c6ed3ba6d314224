import ScriptPress.Proofs.Scopes.Script

/-! # What functions know of their bodies

A function in a script that was read tells whether its body needs an activation record and whether
it refers to `this`. A label `arguments` counts for the first like the use of the name, although it
is taken back from the uses.
-/
namespace ScriptPress

/-- A call whose callee is the plain name `eval`. -/
def Tree.callsEval (t : Tree) : Bool :=
  t.tag == .call && t.children.head?.any (·.data.calleeName? == some "eval")

namespace Spot

/-- The label at a spot. -/
def label? (p : Spot) : Option String := if p.standing = .label then p.tree.name? else none

/-- A spot that needs an activation record: a `with`, a call of `eval`, a use of `arguments`. -/
def needsActivation (p : Spot) : Bool :=
  p.tree.tag == .kwWith || p.tree.callsEval || p.used? == some "arguments"

/-- A spot at which the body is taken to need an activation record. -/
def activates (p : Spot) : Bool := p.needsActivation || p.label? == some "arguments"

def isThis (p : Spot) : Bool := p.tree.tag == .primary && p.tree.data.datum == some .thisValue

end Spot

/-- What some spots need. -/
def needsOf (ps : List Spot) : Needs := ⟨ps.any Spot.activates, ps.any Spot.isThis⟩

theorem needsOf_append (ps qs : List Spot) : needsOf (ps ++ qs) = needsOf ps ++ needsOf qs := by
  simp only [needsOf, List.any_append, Needs.append_def]

theorem needsOf_cons (p : Spot) (ps : List Spot) : needsOf (p :: ps) = needsOf [p] ++ needsOf ps :=
  needsOf_append [p] ps

/-- The standings of names that are no uses, though they are no labels. -/
def Standing.isName (standing : Standing) : Bool := standing == .declared || standing == .named

theorem Standing.isName_ite (b : Bool) : (if b = true then named else part).isName = b := by
  cases b <;> rfl

theorem Core.names_standing (c : Core) (i : Nat) : c.names i = (c.tag.standing i).isName := by
  obtain ⟨tag, datum, payload, form⟩ := c
  cases tag
  case getProp | objectLit | kwCatch => exact (Standing.isName_ite _).symm
  case label => simp only [Core.names, Tag.standing]; split <;> rfl
  all_goals rfl

section
variable {t : Tree} {standing : Standing}

theorem name?_arguments : (t.name? == some "arguments")
    = (t.tag == .identifier && t.data.payload == .text "arguments") := by
  unfold Tree.name?
  split
  · next name htag hpayload => simp [htag, hpayload]
  · next hnone =>
    by_cases htag : t.tag = .identifier
    · have hpayload : t.data.payload ≠ .text "arguments" := hnone _ htag
      simp [hpayload]
    · simp [htag]

theorem isEval_outline (callee : Tree) :
    (callee.data.calleeName? == some "eval") = callee.outline.core.isEval := by
  obtain ⟨id, data, children⟩ := callee
  have htext : data.data? = data.payload.text? := by
    obtain ⟨tag, datum, line, payload, properties⟩ := data
    cases payload <;> rfl
  have hcore : (Tree.node id data children).outline.core = data.core := by
    rw [Tree.outline_node, Outline.core]
  rw [hcore, Core.isEval, Tree.data, Node.calleeName?, htext]
  by_cases h : data.tag = .identifier <;> simp [h, Node.core]

theorem callsEval_outline : t.callsEval
    = Outline.callsEval t.data.core (t.children.map Tree.outline) := by
  rw [Tree.callsEval, Outline.callsEval, List.head?_map, Option.any_map]
  simp only [isEval_outline]
  rfl

/-- What a node needs by itself, by its core and by its spot. -/
theorem needs_spot (t : Tree) (standing : Standing) : t.data.core.needs standing.isName
      ++ { activation := Outline.callsEval t.data.core (t.children.map Tree.outline) }
    = needsOf [⟨standing, t⟩] := by
  have hname : (!standing.isName && t.data.core.tag == .identifier
      && t.data.core.payload == .text "arguments")
        = ((Spot.mk standing t).used? == some "arguments"
          || (Spot.mk standing t).label? == some "arguments") := by
    rw [Bool.and_assoc, show (t.data.core.tag == .identifier
      && t.data.core.payload == .text "arguments") = _ from name?_arguments.symm]
    cases standing <;> simp [Standing.isName, Spot.used?, Spot.label?]
  have htag : t.data.core.tag = t.tag := rfl
  rw [← callsEval_outline, Needs.append_def, Core.needs, hname, htag, needsOf, List.any_cons,
    List.any_nil, List.any_cons, List.any_nil, Spot.activates, Spot.needsActivation, Spot.isThis]
  simp only [Bool.or_false]
  refine congrArg₂ Needs.mk ?_ rfl
  ac_rfl

/-- The needs of parts, where they stand. -/
theorem needs_under (core : Core) (index : Nat) {ts : List Tree}
    (h : ∀ t ∈ ts, ∀ standing, t.outline.needs standing.isName = needsOf (t.nodes standing)) :
    Outline.partsNeeds core index (ts.map Tree.outline)
      = needsOf (Tree.nodesUnder core.tag index ts) := by
  induction ts generalizing index with
  | nil => rw [List.map_nil, Outline.partsNeeds, Tree.nodesUnder]; rfl
  | cons t ts ih =>
    rw [List.map_cons, Outline.partsNeeds, Tree.nodesUnder, needsOf_append, Core.names_standing,
      h t (by simp), ih _ fun t ht => h t (by simp [ht])]

/-- The needs of an outline are those of the spots from its place on. -/
theorem needs_nodes (t : Tree) (standing : Standing) :
    t.outline.needs standing.isName = needsOf (t.nodes standing) := by
  induction t using Tree.induction generalizing standing with
  | node id data children ih =>
    have hinside : (if (data.core.tag == .kwFunction) = true then ({} : Needs)
          else Outline.partsNeeds data.core 0 (children.map Tree.outline))
        = needsOf (if (data.tag == .kwFunction) = true then []
          else (Tree.node id data children).inside) := by
      rw [show data.core.tag = data.tag from rfl]
      split
      · rfl
      · exact needs_under data.core 0 ih
    have hself := needs_spot (.node id data children) standing
    rw [Tree.outline_node, Outline.needs, Tree.nodes_eq, needsOf_cons, hinside, ← hself]
    rfl

/-- The functions in a tree tell what the outlines of their bodies need. -/
theorem flagged_preorder (h : t.outline.Flagged) : ∀ u ∈ t.preorder, u.outline.Flagged := by
  induction t using Tree.induction with
  | node id data children ih =>
    intro u hu
    rw [Tree.preorder, List.mem_cons, Tree.mem_preorderAll] at hu
    rcases hu with rfl | ⟨c, hc, hu⟩
    · exact h
    · rw [Tree.outline_node] at h
      cases h with
      | node _ hall => exact ih c hc (hall _ (List.mem_map_of_mem hc)) u hu

/-- What a function tells is what the nodes inside it need. -/
theorem tells_inside (h : t.outline.Flagged) : t.data.core.Tells (needsOf t.inside) := by
  obtain ⟨id, data, children⟩ := t
  rw [Tree.outline_node] at h
  cases h with
  | node htells _ =>
    have hinside : needsOf (Tree.node id data children).inside
        = Outline.partsNeeds data.core 0 (children.map Tree.outline) :=
      (needs_under data.core 0 fun c _ => needs_nodes c).symm
    rwa [hinside]

end

namespace Script
variable {settings : ReadSettings} {text : String} {script : Script}

/-- A function of a script that was read tells that it requires an activation record exactly when,
outside the functions in it, there is a `with`, a call of `eval`, a use of `arguments` or a label of
that name, and that it checks `this` exactly when there is a `this`. -/
theorem read_flags (h : read settings text = .ok script) :
    ∀ f ∈ script.tree.preorder, f.tag = .kwFunction → ∃ data, f.data.payload = .function data
      ∧ (data.requiresActivation = true
        ↔ ∃ p ∈ f.inside, p.needsActivation = true ∨ p.label? = some "arguments")
      ∧ (data.checksThis = true ↔ ∃ p ∈ f.inside, p.isThis = true) := by
  intro f hf htag
  obtain ⟨data, hpayload, -⟩ := (scopes_listed h f hf (by rw [htag]; rfl)).locals htag
  have hflagged : script.tree.outline.Flagged := (Grammar.read_sound h).1.flagged
  obtain ⟨hactivation, hthis⟩ := tells_inside (flagged_preorder hflagged f hf) data hpayload
  refine ⟨data, hpayload, ?_, ?_⟩
  · rw [hactivation, needsOf, List.any_eq_true]
    simp only [Spot.activates, Bool.or_eq_true, beq_iff_eq]
  · rw [hthis, needsOf, List.any_eq_true]

/-- The call of `eval` is in the outer function and `this` in the inner one. -/
theorem read_flags_eval : ∃ script f,
    read {} "function f()\x7bx(function()\x7breturn this\x7d)(eval(y))\x7d" = .ok script
      ∧ f ∈ script.tree.preorder ∧ f.tag = .kwFunction
      ∧ f.data.payload
        = .function { name := some "f", role := .statement, requiresActivation := true }
      ∧ (∃ p ∈ f.inside, p.needsActivation = true ∨ p.label? = some "arguments")
      ∧ ¬∃ p ∈ f.inside, p.isThis = true := by
  have hread : ((read {} "function f()\x7bx(function()\x7breturn this\x7d)(eval(y))\x7d").toOption.map
      fun script => (functions script).map (·.data.payload)) = some
        [.function { name := some "f", role := .statement, requiresActivation := true },
          .function { name := none, role := .expression, checksThis := true }] := by
    decide +kernel
  obtain ⟨script, hok, hpayloads⟩ := exists_read hread
  obtain ⟨f, hf, htag, hpayload⟩ := exists_function hpayloads
  obtain ⟨data, hdata, hneeds, hthis⟩ := read_flags hok f hf htag
  obtain rfl := Payload.function.inj (hpayload.symm.trans hdata)
  refine ⟨script, f, hok, hf, htag, hpayload, hneeds.mp rfl, fun hp => ?_⟩
  cases hthis.mpr hp

/-- A label is enough, where no spot in the function needs an activation record. -/
theorem read_flags_labelled : ∃ script f,
    read {} "function f()\x7barguments:;\x7d" = .ok script
      ∧ f ∈ script.tree.preorder ∧ f.tag = .kwFunction
      ∧ f.data.payload
        = .function { name := some "f", role := .statement, requiresActivation := true }
      ∧ ∀ p ∈ f.inside, p.needsActivation = false := by
  have hread : ((read {} "function f()\x7barguments:;\x7d").toOption.map fun script =>
      (functions script).map fun f => (f.data.payload, f.inside.any Spot.needsActivation)) = some
        [(.function { name := some "f", role := .statement, requiresActivation := true }, false)] := by
    decide +kernel
  obtain ⟨script, hok, hflags⟩ := exists_read hread
  obtain ⟨f, hf, htag, hflags⟩ := exists_function hflags
  obtain ⟨hpayload, hnone⟩ := Prod.mk.inj hflags
  exact ⟨script, f, hok, hf, htag, hpayload, by simpa using hnone⟩

end Script
end ScriptPress
