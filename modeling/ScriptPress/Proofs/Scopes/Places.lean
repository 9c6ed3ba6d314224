import Mathlib.Data.List.Induction
import ScriptPress.Grammar.State
import ScriptPress.Proofs.Jumps.Tally

/-! # Names in their places

A name in a tree declares a variable, uses one, is a label, or names something that is no variable.
Which of these it does is told by its place. The names inside a function or a script, those in
functions inside it left out, are what its lists of names are about.
-/
namespace ScriptPress

/-- What a node is for the node around it. -/
inductive Standing where
  | part | declared | label | named
  deriving Repr, DecidableEq

/-- What the child at an index is for a node. -/
def Tag.standing (parent : Tag) (index : Nat) : Standing :=
  match parent with
  | .kwVar => .declared
  | .getProp => if index == 1 then .named else .part
  | .objectLit => if index % 2 == 0 then .named else .part
  | .kwBreak | .kwContinue => .named
  | .kwCatch => if index == 0 then .named else .part
  | .label => if index == 0 then .label else .part
  | _ => .part

/-- The nodes that list the names inside them. -/
def Tag.opensScope (tag : Tag) : Bool := tag == .script || tag == .kwFunction

/-- A tree where it stands. -/
structure Spot where
  standing : Standing
  tree : Tree

namespace Tree

/-- The name that a node is. -/
def name? (t : Tree) : Option String :=
  match t.tag, t.data.payload with
  | .identifier, .text name => some name
  | _, _ => none

/-- The children of a node where they stand, from an index on. -/
def placed (parent : Tag) (index : Nat) : List Tree → List Spot
  | [] => []
  | t :: rest => ⟨parent.standing index, t⟩ :: placed parent (index + 1) rest

mutual

/-- The nodes of a tree where they stand, parents before children. What is in a function does not
count for the code around it. -/
def nodes (standing : Standing) : Tree → List Spot
  | node id data children =>
    ⟨standing, node id data children⟩
      :: if data.tag == .kwFunction then [] else nodesUnder data.tag 0 children

def nodesUnder (parent : Tag) (index : Nat) : List Tree → List Spot
  | [] => []
  | t :: rest => nodes (parent.standing index) t ++ nodesUnder parent (index + 1) rest

end

/-- The nodes inside a node that are in no function inside it, in the order of the text. -/
def inside (t : Tree) : List Spot := nodesUnder t.tag 0 t.children

end Tree

namespace Spot

/-- The variable declared at a place. -/
def declared? (p : Spot) : Option String := if p.standing = .declared then p.tree.name? else none

/-- The name used at a place. -/
def used? (p : Spot) : Option String := if p.standing = .part then p.tree.name? else none

/-- The nodes from a place on. -/
def nodes (p : Spot) : List Spot := p.tree.nodes p.standing

end Spot

namespace Tree

/-- The names of the variables declared inside a node, in the order of the text. -/
def declaredNames (t : Tree) : List String := t.inside.filterMap Spot.declared?

/-- The names used inside a node, in the order of the text. -/
def usedNames (t : Tree) : List String := t.inside.filterMap Spot.used?

/-- The lists of a script or a function are about the names inside it: the variables by their first
declarations, the uses in ascending order. A function counts its variables with its parameters. -/
structure ListsNames (t : Tree) : Prop where
  vars : t.data.properties.get? .vars = some (.texts t.declaredNames.eraseDups)
  uses : ∃ uses, t.data.properties.get? .uses = some (.texts uses) ∧ uses.Pairwise (· < ·)
    ∧ ∀ name, name ∈ uses ↔ name ∈ t.usedNames
  locals : t.tag = .kwFunction → ∃ data, t.data.payload = .function data
    ∧ t.data.properties.get? .localCount
      = some (.number (data.params.length + t.declaredNames.eraseDups.length : Nat))

/-! ## Places in a tree -/

variable {parent : Tag} {index : Nat} {standing : Standing} {id : NodeId} {data data' : Node}
  {children : List Tree}

theorem placed_append (ts us : List Tree) :
    placed parent index (ts ++ us) = placed parent index ts ++ placed parent (index + ts.length) us := by
  induction ts generalizing index with
  | nil => rfl
  | cons t ts ih =>
    rw [List.cons_append, placed, ih, placed, List.cons_append, List.length_cons,
      show index + 1 + ts.length = index + (ts.length + 1) by omega]

/-- The children of most nodes all stand for the same. -/
theorem placed_uniform (h : ∀ i, index ≤ i → parent.standing i = standing) (ts : List Tree) :
    placed parent index ts = ts.map (Spot.mk standing) := by
  induction ts generalizing index with
  | nil => rfl
  | cons t ts ih =>
    rw [placed, ih fun i hi => h i (by omega), List.map_cons, h index (Nat.le_refl _)]

theorem nodesUnder_eq (ts : List Tree) :
    nodesUnder parent index ts = (placed parent index ts).flatMap Spot.nodes := by
  induction ts generalizing index with
  | nil => rfl
  | cons t ts ih => rw [nodesUnder, ih, placed, List.flatMap_cons, Spot.nodes]

theorem nodes_eq (t : Tree) : t.nodes standing
    = ⟨standing, t⟩ :: if t.tag == .kwFunction then [] else t.inside := by
  obtain ⟨id, data, children⟩ := t
  rfl

end Tree

/-! ## Lists of names -/

namespace Grammar

theorem mem_insertName {name other : String} {names : List String} :
    other ∈ insertName name names ↔ other = name ∨ other ∈ names := by
  induction names with
  | nil => simp [insertName]
  | cons first rest ih =>
    rw [insertName]
    split
    · next h => simp [h]
    split
    · simp
    · rw [List.mem_cons, ih, List.mem_cons]
      exact or_left_comm

theorem insertName_sorted {name : String} {names : List String} (h : names.Pairwise (· < ·)) :
    (insertName name names).Pairwise (· < ·) := by
  induction names with
  | nil => exact List.pairwise_singleton _ _
  | cons first rest ih =>
    obtain ⟨hfirst, hrest⟩ := List.pairwise_cons.mp h
    rw [insertName]
    split
    · exact h
    next hne =>
    split
    · next hlt =>
      refine List.pairwise_cons.mpr ⟨fun other hother => ?_, h⟩
      rcases List.mem_cons.mp hother with rfl | hother
      · exact hlt
      · exact String.lt_trans hlt (hfirst other hother)
    · next hnlt =>
      refine List.pairwise_cons.mpr ⟨fun other hother => ?_, ih hrest⟩
      rcases mem_insertName.mp hother with rfl | hother
      · exact Std.lt_of_le_of_ne (String.not_lt.mp hnlt) (Ne.symm hne)
      · exact hfirst other hother

/-- A name that is listed already is not listed again. -/
theorem insertName_mem {name : String} {names : List String} (h : names.Pairwise (· < ·))
    (hname : name ∈ names) : insertName name names = names := by
  induction names with
  | nil => cases hname
  | cons first rest ih =>
    obtain ⟨hfirst, hrest⟩ := List.pairwise_cons.mp h
    rw [insertName]
    split
    · rfl
    next hne =>
    have hmem : name ∈ rest := (List.mem_cons.mp hname).resolve_left hne
    rw [if_neg fun hlt => String.lt_irrefl _ (String.lt_trans hlt (hfirst name hmem)), ih hrest hmem]

/-- A name that was not listed before can be taken out again. -/
theorem erase_insertName {name : String} {names : List String} (h : name ∉ names) :
    (insertName name names).erase name = names := by
  induction names with
  | nil => simp [insertName]
  | cons first rest ih =>
    obtain ⟨hne, hrest⟩ : name ≠ first ∧ name ∉ rest := by simpa using h
    rw [insertName, if_neg hne]
    split
    · exact List.erase_cons_head ..
    · rw [List.erase_cons_tail (by simpa using Ne.symm hne), ih hrest]

/-- Puts a name behind others, once. -/
def appendName (names : List String) (name : String) : List String :=
  if names.contains name then names else names ++ [name]

theorem foldl_appendName (names : List String) :
    names.foldl appendName [] = names.eraseDups := by
  induction names using List.reverseRecOn with
  | nil => rfl
  | append_singleton names name ih =>
    rw [List.foldl_append, ih, List.foldl_cons, List.foldl_nil, appendName,
      List.eraseDups_append]
    by_cases h : name ∈ names
    · simp [h, List.removeAll]
    · simp [h, List.removeAll, List.eraseDups_cons]

end Grammar

/-- The lists of names in a scope. -/
structure Names where
  vars : List String := []
  uses : List String := []

namespace Names
open Grammar

/-- The lists once the names at some places were noted. -/
def along (n : Names) (ps : List Spot) : Names where
  vars := (ps.filterMap Spot.declared?).foldl appendName n.vars
  uses := (ps.filterMap Spot.used?).foldl (fun uses name => insertName name uses) n.uses

/-- The uses are in ascending order. -/
def Sorted (n : Names) : Prop := n.uses.Pairwise (· < ·)

variable {n : Names} {p : Spot} {ps qs : List Spot}

@[simp] theorem along_nil : n.along [] = n := rfl

theorem along_append : n.along (ps ++ qs) = (n.along ps).along qs := by
  simp only [along, List.filterMap_append, List.foldl_append]

theorem along_cons : n.along (p :: ps) = (n.along [p]).along ps := by
  rw [← along_append, List.singleton_append]

/-- A place where no name is declared or used. -/
theorem along_silent (hd : p.declared? = none) (hu : p.used? = none) : n.along [p] = n := by
  simp only [along, List.filterMap_cons, hd, hu, List.filterMap_nil, List.foldl_nil]

theorem foldl_insertName (names : List String) {uses : List String} (h : uses.Pairwise (· < ·)) :
    (names.foldl (fun uses name => insertName name uses) uses).Pairwise (· < ·)
      ∧ ∀ name, name ∈ names.foldl (fun uses name => insertName name uses) uses
        ↔ name ∈ uses ∨ name ∈ names := by
  induction names generalizing uses with
  | nil => exact ⟨h, by simp⟩
  | cons first rest ih =>
    obtain ⟨hsorted, hmem⟩ := ih (insertName_sorted h)
    refine ⟨hsorted, fun name => (hmem name).trans ?_⟩
    rw [mem_insertName, List.mem_cons, or_comm (a := name = first), or_assoc]

theorem Sorted.along (h : n.Sorted) (ps : List Spot) : (n.along ps).Sorted :=
  (foldl_insertName _ h).1

/-- What is listed from no name on: each variable at its first declaration, each use once. -/
theorem listed (ps : List Spot) :
    (Names.along {} ps).vars = (ps.filterMap Spot.declared?).eraseDups
      ∧ (Names.along {} ps).uses.Pairwise (· < ·)
      ∧ ∀ name, name ∈ (Names.along {} ps).uses ↔ name ∈ ps.filterMap Spot.used? := by
  obtain ⟨hsorted, hmem⟩ := foldl_insertName (ps.filterMap Spot.used?) .nil
  refine ⟨foldl_appendName _, hsorted, fun name => (hmem name).trans ?_⟩
  simp

end Names
end ScriptPress
