import ScriptPress.Proofs.Lexical.Feed
import ScriptPress.Proofs.Lexical.Joining
import ScriptPress.Tree.Precedence

/-! # Outlines

The outline of a tree is its shape without identities, lines and the properties that only refer to
other nodes: what two readings of one script share. What a function tells about its body can be
computed from the outline of the body, so that outlines agree as soon as their sketches do, where
functions tell nothing.
-/
namespace ScriptPress

/-- What a node is apart from its place. -/
structure Core where
  tag : Tag
  datum : Option Tag := none
  payload : Payload := .none
  postfixForm : Bool := false
  deriving Repr, DecidableEq

namespace Node

def core (n : Node) : Core := ⟨n.tag, n.datum, n.payload, n.properties.flag .postfixForm⟩

/-- The comments in front of a node. -/
def leading (n : Node) : List String := n.properties.texts .comments

/-- The comments at the end of a node. -/
def trailing (n : Node) : List String := n.properties.texts .trailingComments

end Node

/-- A tree of cores. -/
inductive Outline where
  | node (core : Core) (parts : List Outline)
  deriving Repr

namespace Tree

theorem induction {P : Tree → Prop}
    (node : ∀ id data children, (∀ t ∈ children, P t) → P (.node id data children)) (t : Tree) :
    P t := by
  refine @Tree.rec P (fun ts => ∀ t ∈ ts, P t) ?_ ?_ ?_ t
  · exact node
  · simp
  · intro t ts ht hts
    simpa using ⟨ht, hts⟩

mutual

def outline : Tree → Outline
  | node _ data children => .node data.core (outlines children)

def outlines : List Tree → List Outline
  | [] => []
  | t :: rest => outline t :: outlines rest

end

@[simp] theorem outlines_eq (ts : List Tree) : outlines ts = ts.map outline := by
  induction ts with
  | nil => rfl
  | cons t ts ih => rw [outlines, ih, List.map_cons]

@[simp] theorem outline_node (id : NodeId) (data : Node) (children : List Tree) :
    (node id data children).outline = .node data.core (children.map outline) := by
  rw [outline, outlines_eq]

end Tree

namespace Outline

theorem induction {P : Outline → Prop}
    (node : ∀ core parts, (∀ p ∈ parts, P p) → P (.node core parts)) (x : Outline) : P x := by
  refine @Outline.rec P (fun xs => ∀ x ∈ xs, P x) ?_ ?_ ?_ x
  · exact node
  · simp
  · intro x xs hx hxs
    simpa using ⟨hx, hxs⟩

def core : Outline → Core
  | node core _ => core

mutual

/-- An outline with its cores replaced. -/
def map (f : Core → Core) : Outline → Outline
  | node core parts => .node (f core) (mapAll f parts)

def mapAll (f : Core → Core) : List Outline → List Outline
  | [] => []
  | x :: rest => map f x :: mapAll f rest

end

variable {f g : Core → Core}

theorem mapAll_eq (xs : List Outline) : mapAll f xs = xs.map (map f) := by
  induction xs with
  | nil => rfl
  | cons x xs ih => rw [mapAll, ih, List.map_cons]

@[simp] theorem map_node (core : Core) (parts : List Outline) :
    (node core parts).map f = .node (f core) (parts.map (map f)) := by
  rw [map, mapAll_eq]

end Outline

/-! ## Sketches -/

def Payload.text? : Payload → Option String
  | .number s | .text s => some s
  | _ => .none

/-- A payload without what a function tells about its body. -/
def Payload.bare : Payload → Payload
  | .function data => .function { data with requiresActivation := false, checksThis := false }
  | payload => payload

/-- A payload whose text has no line continuations. -/
def Payload.joined : Payload → Payload
  | .text s => .text (Render.withoutContinuations s)
  | payload => payload

namespace Core

def bare (c : Core) : Core := { c with payload := c.payload.bare }

/-- A core whose string, if it is one, has no line continuations. -/
def joined (c : Core) : Core := if c.tag = .string then { c with payload := c.payload.joined } else c

/-- What is left of a core in written form: compact output joins the lines of a string. -/
def echo (compact : Bool) (c : Core) : Core := if compact then c.joined else c

theorem joined_joined (c : Core) : c.joined.joined = c.joined := by
  unfold joined
  by_cases h : c.tag = .string
  · rw [if_pos h, if_pos h]
    cases c with
    | mk tag datum payload => cases payload <;> simp [Payload.joined, Render.withoutContinuations_idem]
  · rw [if_neg h, if_neg h]

theorem echo_tag (compact : Bool) (c : Core) : (c.echo compact).tag = c.tag := by
  unfold echo joined
  split
  · split <;> rfl
  · rfl

theorem echo_echo (compact : Bool) (c : Core) : (c.echo compact).echo compact = c.echo compact := by
  cases compact with
  | false => rfl
  | true => exact joined_joined c

theorem joined_echo (compact : Bool) (c : Core) : (c.echo compact).joined = c.joined := by
  cases compact with
  | false => rfl
  | true => exact joined_joined c

theorem bare_joined (c : Core) : c.joined.bare = c.bare.joined := by
  unfold joined
  by_cases h : c.tag = .string
  · have hb : c.bare.tag = .string := h
    rw [if_pos h, if_pos hb]
    cases c with
    | mk tag datum payload => cases payload <;> rfl
  · have hb : c.bare.tag ≠ .string := h
    rw [if_neg h, if_neg hb]

theorem bare_echo (compact : Bool) (c : Core) : (c.echo compact).bare = c.bare.echo compact := by
  cases compact with
  | false => rfl
  | true => exact bare_joined c

end Core

/-- The outline of a tree without what its functions tell. -/
def Tree.sketch (t : Tree) : Outline := t.outline.map Core.bare

@[simp] theorem Tree.sketch_node (id : NodeId) (data : Node) (children : List Tree) :
    (node id data children).sketch = .node data.core.bare (children.map Tree.sketch) := by
  rw [sketch, outline_node, Outline.map_node, List.map_map]
  rfl

/-! ## Written form -/

/-- The parts of a node that are written as they are: the keys of objects. -/
def Core.keeps (c : Core) (index : Nat) : Bool := c.tag == .objectLit && index % 2 == 0

namespace Outline

mutual

/-- What is left of an outline in written form. -/
def echo (compact : Bool) : Outline → Outline
  | node core parts => .node (core.echo compact) (echoParts compact core 0 parts)

def echoParts (compact : Bool) (core : Core) (index : Nat) : List Outline → List Outline
  | [] => []
  | x :: rest =>
    (if core.keeps index then x else echo compact x) :: echoParts compact core (index + 1) rest

end

variable {compact : Bool}

theorem echoParts_eq {core : Core} (h : (core.tag == .objectLit) = false) (index : Nat)
    (parts : List Outline) : echoParts compact core index parts = parts.map (echo compact) := by
  induction parts generalizing index with
  | nil => rw [echoParts, List.map_nil]
  | cons x rest ih =>
    rw [echoParts, List.map_cons, ih, Core.keeps, h, Bool.false_and, if_neg (by simp)]

theorem core_echo (x : Outline) : (x.echo compact).core = x.core.echo compact := by
  cases x with
  | node core parts => rw [echo, Outline.core, Outline.core]

theorem echoParts_self {core : Core} (index : Nat) {parts : List Outline}
    (h : ∀ x ∈ parts, x.echo compact = x) : echoParts compact core index parts = parts := by
  induction parts generalizing index with
  | nil => rw [echoParts]
  | cons x rest ih =>
    rw [echoParts, ih _ fun y hy => h y (by simp [hy]), h x (by simp), ite_self]

/-- Expanded output leaves everything as it is. -/
theorem echo_false (x : Outline) : x.echo false = x := by
  induction x using induction with
  | node core parts ih =>
    rw [echo, echoParts_self 0 ih]
    rfl

theorem keeps_echo (core : Core) : (core.echo compact).keeps = core.keeps := by
  unfold Core.keeps
  rw [Core.echo_tag]

theorem echo_echo (x : Outline) : (x.echo compact).echo compact = x.echo compact := by
  induction x using induction with
  | node core parts ih =>
    have hparts : ∀ index, echoParts compact (core.echo compact) index
        (echoParts compact core index parts) = echoParts compact core index parts := by
      intro index
      induction parts generalizing index with
      | nil => rw [echoParts, echoParts]
      | cons x rest ihr =>
        rw [echoParts, echoParts, ihr fun y hy => ih y (by simp [hy]), keeps_echo]
        split
        · rfl
        · rw [ih x (by simp)]
    rw [echo, echo, Core.echo_echo, hparts]

/-- Two outlines with one written form differ in the lines of their strings only. -/
theorem map_joined_echo (x : Outline) : (x.echo compact).map Core.joined = x.map Core.joined := by
  induction x using induction with
  | node core parts ih =>
    have hparts : ∀ index, (echoParts compact core index parts).map (map Core.joined)
        = parts.map (map Core.joined) := by
      intro index
      induction parts generalizing index with
      | nil => rw [echoParts]
      | cons x rest ihr =>
        rw [echoParts, List.map_cons, List.map_cons, ihr fun y hy => ih y (by simp [hy])]
        split
        · rfl
        · rw [ih x (by simp)]
    rw [echo, map_node, map_node, Core.joined_echo, hparts]

theorem map_bare_echo (x : Outline) :
    (x.map Core.bare).echo compact = (x.echo compact).map Core.bare := by
  induction x using induction with
  | node core parts ih =>
    have hparts : ∀ index, echoParts compact core.bare index (parts.map (map Core.bare))
        = (echoParts compact core index parts).map (map Core.bare) := by
      intro index
      induction parts generalizing index with
      | nil => rw [echoParts, List.map_nil, echoParts]
      | cons x rest ihr =>
        rw [List.map_cons, echoParts, echoParts, List.map_cons,
          ihr fun y hy => ih y (by simp [hy]), show core.bare.keeps = core.keeps from rfl]
        split
        · rfl
        · rw [ih x (by simp)]
    rw [map_node, echo, echo, map_node, Core.bare_echo, hparts]

end Outline

/-! ## What functions tell -/

/-- What a function has to know about its body. -/
structure Needs where
  activation : Bool := false
  this : Bool := false
  deriving Repr, DecidableEq

namespace Needs

instance : Append Needs := ⟨fun a b => ⟨a.activation || b.activation, a.this || b.this⟩⟩

theorem append_def (a b : Needs) : a ++ b = ⟨a.activation || b.activation, a.this || b.this⟩ := rfl

@[simp] theorem empty_append (a : Needs) : {} ++ a = a := by simp [append_def]

@[simp] theorem append_empty (a : Needs) : a ++ {} = a := by simp [append_def]

@[simp] theorem append_assoc (a b c : Needs) : a ++ b ++ c = a ++ (b ++ c) := by
  simp [append_def, Bool.or_assoc]

end Needs

namespace Core

/-- What a node needs by itself; a node that only names something uses no variable. -/
def needs (named : Bool) (c : Core) : Needs where
  activation := (!named && c.tag == .identifier && c.payload == .text "arguments")
    || c.tag == .kwWith
  this := c.tag == .primary && c.datum == some .thisValue

def isEval (c : Core) : Bool :=
  c.tag == .identifier && c.payload.text? == some "eval"

/-- Whether a part of a node only names something. -/
def names (c : Core) (index : Nat) : Bool :=
  match c.tag with
  | .getProp => index == 1
  | .objectLit => index % 2 == 0
  | .kwVar | .kwBreak | .kwContinue => true
  | .kwCatch => index == 0
  | _ => false

/-- A function tells these needs. -/
def Tells (c : Core) (needs : Needs) : Prop :=
  ∀ data, c.payload = .function data →
    data.requiresActivation = needs.activation ∧ data.checksThis = needs.this

end Core

namespace Outline

/-- A call of `eval`. -/
def callsEval (core : Core) (parts : List Outline) : Bool :=
  core.tag == .call && parts.head?.any (·.core.isEval)

mutual

/-- What a function has to know about an outline in its body. -/
def needs (named : Bool) : Outline → Needs
  | node core parts =>
    core.needs named ++ { activation := callsEval core parts }
      ++ if core.tag == .kwFunction then {} else partsNeeds core 0 parts

def partsNeeds (core : Core) (index : Nat) : List Outline → Needs
  | [] => {}
  | x :: rest => needs (core.names index) x ++ partsNeeds core (index + 1) rest

end

/-- Every function tells what its body needs. -/
inductive Flagged : Outline → Prop
  | node {core parts} : core.Tells (partsNeeds core 0 parts) → (∀ x ∈ parts, Flagged x) →
      Flagged (.node core parts)

variable {f : Core → Core}

/-- A change of cores that keeps what matters for the needs. -/
structure Faithful (f : Core → Core) : Prop where
  tag : ∀ c, (f c).tag = c.tag
  needs : ∀ named c, (f c).needs named = c.needs named
  isEval : ∀ c, (f c).isEval = c.isEval

theorem Faithful.names (hf : Faithful f) (c : Core) : (f c).names = c.names := by
  unfold Core.names
  rw [hf.tag]

theorem partsNeeds_congr {core core' : Core} (h : core.names = core'.names) (index : Nat)
    (parts : List Outline) : partsNeeds core index parts = partsNeeds core' index parts := by
  induction parts generalizing index with
  | nil => rw [partsNeeds, partsNeeds]
  | cons x rest ih => rw [partsNeeds, partsNeeds, ih, h]

theorem faithful_joined : Faithful Core.joined where
  tag c := by
    unfold Core.joined
    split <;> rfl
  needs named c := by
    unfold Core.joined
    split
    · next h =>
      have hnot : (c.tag == .identifier) = false := by rw [h]; rfl
      simp [Core.needs, hnot]
    · rfl
  isEval c := by
    unfold Core.joined
    split
    · next h =>
      have hnot : (c.tag == .identifier) = false := by rw [h]; rfl
      simp [Core.isEval, hnot]
    · rfl

theorem faithful_echo (compact : Bool) : Faithful (Core.echo compact) := by
  cases compact with
  | false => exact ⟨fun _ => rfl, fun _ _ => rfl, fun _ => rfl⟩
  | true => exact faithful_joined

section
variable {compact : Bool}

theorem callsEval_echo (core : Core) (parts : List Outline) :
    callsEval (core.echo compact) (echoParts compact core 0 parts) = callsEval core parts := by
  rw [callsEval, callsEval, Core.echo_tag]
  cases parts with
  | nil => rw [echoParts]
  | cons x rest =>
    rw [echoParts, List.head?_cons, List.head?_cons, Option.any_some, Option.any_some]
    split
    · rfl
    · rw [core_echo, (faithful_echo compact).isEval]

theorem partsNeeds_echo (core : Core) (index : Nat) (parts : List Outline)
    (h : ∀ x ∈ parts, ∀ named, (x.echo compact).needs named = x.needs named) :
    partsNeeds (core.echo compact) index (echoParts compact core index parts)
      = partsNeeds core index parts := by
  rw [partsNeeds_congr ((faithful_echo compact).names core)]
  induction parts generalizing index with
  | nil => rw [echoParts]
  | cons x rest ih =>
    rw [echoParts, partsNeeds, partsNeeds, ih _ fun y hy => h y (by simp [hy])]
    split
    · rfl
    · rw [h x (by simp)]

theorem needs_echo (x : Outline) (named : Bool) : (x.echo compact).needs named = x.needs named := by
  induction x using induction generalizing named with
  | node core parts ih =>
    rw [echo, needs, needs, (faithful_echo compact).needs, Core.echo_tag, callsEval_echo,
      partsNeeds_echo]
    exact fun x hx named => ih x hx named

end
end Outline

/-! ## From sketches to outlines -/

namespace Core

/-- A core is known from what it is without its needs and from the needs it tells. -/
theorem eq_of_bare {c c' : Core} {needs : Needs} (h : c.bare = c'.bare) (hc : c.Tells needs)
    (hc' : c'.Tells needs) : c = c' := by
  obtain ⟨tag, datum, payload, form⟩ := c
  obtain ⟨tag', datum', payload', form'⟩ := c'
  simp only [bare, mk.injEq] at h
  obtain ⟨rfl, rfl, hpayload, rfl⟩ := h
  have hsame : payload = payload' := by
    cases payload with
    | function data =>
      cases payload' with
      | function data' =>
        obtain ⟨hactivation, hthis⟩ := hc data rfl
        obtain ⟨hactivation', hthis'⟩ := hc' data' rfl
        obtain ⟨name, role, params, activation, checks⟩ := data
        obtain ⟨name', role', params', activation', checks'⟩ := data'
        simp only [Payload.bare, Payload.function.injEq, FunctionData.mk.injEq] at hpayload
        obtain ⟨rfl, rfl, rfl, -, -⟩ := hpayload
        simp only at hactivation hthis hactivation' hthis'
        rw [hactivation, hthis, hactivation', hthis']
      | none | number _ | text _ => cases hpayload
    | none | number _ | text _ =>
      cases payload' with
      | function data' => cases hpayload
      | none | number _ | text _ => exact hpayload
  rw [hsame]

theorem Tells.echo {c : Core} {needs : Needs} {compact : Bool} (h : c.Tells needs) :
    (c.echo compact).Tells needs := by
  intro data hdata
  refine h data ?_
  unfold Core.echo joined at hdata
  split at hdata
  · split at hdata
    · cases hp : c.payload <;> simp_all [Payload.joined]
    · exact hdata
  · exact hdata

end Core

namespace Outline

theorem Flagged.echo {x : Outline} {compact : Bool} (h : Flagged x) :
    Flagged (x.echo compact) := by
  induction h with
  | @node core parts htells hparts ih =>
    rw [Outline.echo]
    refine .node ?_ ?_
    · rw [partsNeeds_echo core 0 parts fun x _ => needs_echo x]
      exact htells.echo
    · suffices h : ∀ index, ∀ y ∈ echoParts compact core index parts, Flagged y from h 0
      clear htells
      intro index
      induction parts generalizing index with
      | nil =>
        rw [echoParts]
        simp
      | cons x rest ihr =>
        rw [echoParts]
        intro y hy
        rcases List.mem_cons.mp hy with rfl | hy
        · split
          · exact hparts x (by simp)
          · exact ih x (by simp)
        · exact ihr (fun y hy => hparts y (by simp [hy])) (fun y hy => ih y (by simp [hy])) _ y hy

theorem Flagged.eq_of_bare {x y : Outline} (hx : Flagged x) (hy : Flagged y)
    (h : x.map Core.bare = y.map Core.bare) : x = y := by
  induction hx generalizing y with
  | @node core parts htells hparts ih =>
    cases hy with
    | @node core' parts' htells' hparts' =>
      rw [map_node, map_node, node.injEq] at h
      obtain ⟨hcore, hmaps⟩ := h
      have hsame : parts = parts' := by
        clear htells htells'
        induction parts generalizing parts' with
        | nil => simpa using hmaps
        | cons p parts ihp =>
          cases parts' with
          | nil => cases hmaps
          | cons q parts' =>
            rw [List.map_cons, List.map_cons, List.cons.injEq] at hmaps
            rw [ih p (by simp) (hparts' q (by simp)) hmaps.1,
              ihp (fun p hp => hparts p (by simp [hp])) (fun p hp => ih p (by simp [hp]))
                (fun q hq => hparts' q (by simp [hq])) hmaps.2]
      subst hsame
      have hnames : core.names = core'.names := by
        have htag : core.bare.tag = core'.bare.tag := by rw [hcore]
        have htag : core.tag = core'.tag := htag
        unfold Core.names
        rw [htag]
      rw [partsNeeds_congr hnames] at htells
      rw [Core.eq_of_bare hcore htells htells']

end Outline

/-- Trees whose functions tell what their bodies need have one outline when they have one sketch,
in written form. -/
theorem outline_eq_of_sketch {t t' : Tree} {compact : Bool} (ht : t.outline.Flagged)
    (ht' : t'.outline.Flagged) (h : t'.sketch = t.sketch.echo compact) :
    t'.outline = t.outline.echo compact := by
  refine ht'.eq_of_bare ht.echo ?_
  rw [Tree.sketch, Tree.sketch, Outline.map_bare_echo] at h
  exact h

/-! ## Comments -/

namespace Tree

mutual

/-- The comments on a tree, in the order of the text. -/
def remarks : Tree → List String
  | node _ data children => data.leading ++ remarksAll children ++ data.trailing

def remarksAll : List Tree → List String
  | [] => []
  | t :: rest => remarks t ++ remarksAll rest

end

/-- The comments on a tree but those before it. -/
def innerRemarks : Tree → List String
  | node _ data children => remarksAll children ++ data.trailing

theorem remarks_eq (t : Tree) : t.remarks = t.data.leading ++ t.innerRemarks := by
  cases t with
  | node id data children => rw [remarks, innerRemarks, List.append_assoc]; rfl

theorem remarksAll_append (ts us : List Tree) :
    remarksAll (ts ++ us) = remarksAll ts ++ remarksAll us := by
  induction ts with
  | nil => rfl
  | cons t ts ih => rw [List.cons_append, remarksAll, remarksAll, ih, List.append_assoc]

end Tree
end ScriptPress
