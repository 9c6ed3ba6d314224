import ScriptPress.Proofs.Jumps.Expression
import ScriptPress.Proofs.Scopes.Places

/-! # Noting names

What a part of a reading does to the lists of names in its scope: they go along with the trees that
are read, each where it stands. Functions keep the names in them to themselves.
-/
namespace ScriptPress

/-- The nodes whose children are all parts, and that are no name and open no scope. -/
def Tag.holdsParts (tag : Tag) : Bool :=
  ! [Tag.identifier, .script, .kwFunction, .kwVar, .getProp, .objectLit, .kwBreak, .kwContinue,
    .kwCatch, .label].contains tag

/-- The nodes that are no name and open no scope. -/
def Tag.isMute (tag : Tag) : Bool := !(tag == .identifier || tag.opensScope)

theorem Tag.isMute_of_holdsParts {tag : Tag} (h : tag.holdsParts = true) : tag.isMute = true := by
  cases tag <;> first | rfl | cases h

theorem Tag.standing_of_holdsParts {tag : Tag} (h : tag.holdsParts = true) (i : Nat) :
    tag.standing i = .part := by
  cases tag <;> first | rfl | cases h

/-- Every function at a spot lists its names, and a name that is a part has no parts. -/
structure Spot.Settled (p : Spot) : Prop where
  functions : ∀ u ∈ p.tree.preorder, u.tag.opensScope = true → u.ListsNames
  name : p.standing = .part → p.tree.tag = .identifier → p.tree.children = []

/-- The properties in which scripts and functions list names. -/
def PropertyKind.lists (kind : PropertyKind) : Bool :=
  kind == .vars || kind == .uses || kind == .localCount

section
variable {t : Tree} {standing : Standing} {kind : PropertyKind} {value : PropertyValue}
  {id : NodeId} {data : Node} {children : List Tree}

/-- Other properties leave the lists of names as they are. -/
theorem Tree.ListsNames.put (h : t.ListsNames) (hk : kind.lists = false) :
    (t.put kind value).ListsNames := by
  simp only [PropertyKind.lists, Bool.or_eq_false_iff, beq_eq_false_iff_ne] at hk
  obtain ⟨⟨hvars, huses⟩, hlocals⟩ := hk
  obtain ⟨id, data, children⟩ := t
  obtain ⟨uses, hget, hsorted, hmem⟩ := h.uses
  refine ⟨?_, ⟨uses, ?_, hsorted, hmem⟩, fun htag => ?_⟩
  · exact (Properties.get?_put _).trans ((if_neg (Ne.symm hvars)).trans h.vars)
  · exact (Properties.get?_put _).trans ((if_neg (Ne.symm huses)).trans hget)
  · obtain ⟨f, hpayload, hcount⟩ := h.locals htag
    exact ⟨f, hpayload, (Properties.get?_put _).trans ((if_neg (Ne.symm hlocals)).trans hcount)⟩

namespace Spot.Settled

theorem node (hown : data.tag.opensScope = true → (Tree.node id data children).ListsNames)
    (hname : standing = .part → data.tag = .identifier → children = [])
    (hall : ∀ c ∈ children, ∀ u ∈ c.preorder, u.tag.opensScope = true → u.ListsNames) :
    (Spot.mk standing (.node id data children)).Settled := by
  refine ⟨fun u hu htag => ?_, hname⟩
  rw [Tree.preorder, List.mem_cons, Tree.mem_preorderAll] at hu
  rcases hu with rfl | ⟨c, hc, hu⟩
  · exact hown htag
  · exact hall c hc u hu htag

theorem put (h : (Spot.mk standing t).Settled) (hk : kind.lists = false) :
    (Spot.mk standing (t.put kind value)).Settled := by
  obtain ⟨id, data, children⟩ := t
  refine node (fun htag => ?_) h.name fun c hc u hu => h.functions u ?_
  · have hself : Tree.node id data children ∈ (Tree.node id data children).preorder := by
      simp [Tree.preorder]
    exact (h.functions _ hself htag).put hk
  · rw [Tree.preorder, List.mem_cons, Tree.mem_preorderAll]
    exact Or.inr ⟨c, hc, hu⟩

end Spot.Settled
end

namespace Grammar

/-- The lists of names in the scope of a state. -/
def State.names (s : State) : Names := ⟨s.scope.vars, s.scope.uses⟩

instance : Aside State.names where
  same s s' hscope _ _ _ _ _ := by simp only [State.names, hscope]

/-- From some lists to others names were noted, those in trees that were read. -/
structure Noted (n n' : Names) (ps : List Spot) : Prop where
  sorted : n.Sorted
  along : n' = n.along (ps.flatMap Spot.nodes)
  settled : ∀ p ∈ ps, p.Settled

variable {α β : Type} {n n' n'' : Names} {ps qs : List Spot} {standing : Standing} {t : Tree}
  {s : State}

namespace Noted

theorem start (h : n.Sorted) : Noted n n [] := ⟨h, rfl, by simp⟩

theorem sorted' (h : Noted n n' ps) : n'.Sorted := h.along ▸ h.sorted.along _

theorem append (h : Noted n n' ps) (h' : Noted n' n'' qs) : Noted n n'' (ps ++ qs) := by
  refine ⟨h.sorted, ?_, fun p hp => (List.mem_append.mp hp).elim (h.settled p) (h'.settled p)⟩
  rw [List.flatMap_append, Names.along_append, ← h.along, h'.along]

/-- A place over the trees read at it. -/
theorem place (hn : n.Sorted) (hs : (Spot.mk standing t).Settled) (htag : t.tag ≠ .kwFunction)
    (h : n' = (n.along [⟨standing, t⟩]).along t.inside) : Noted n n' [⟨standing, t⟩] := by
  refine ⟨hn, ?_, by simpa using hs⟩
  rw [List.flatMap_singleton, Spot.nodes, Tree.nodes_eq, if_neg (by simpa using htag),
    Names.along_cons, h]

theorem inside (h : Noted n n' (Tree.placed t.tag 0 t.children)) : n' = n.along t.inside := by
  rw [h.along, Tree.inside, Tree.nodesUnder_eq]

theorem settled_parts {parent : Tag} {index : Nat} {ts : List Tree}
    (h : ∀ p ∈ Tree.placed parent index ts, p.Settled) :
    ∀ c ∈ ts, ∀ u ∈ c.preorder, u.tag.opensScope = true → u.ListsNames := by
  induction ts generalizing index with
  | nil => simp
  | cons t ts ih =>
    rw [Tree.placed, List.forall_mem_cons] at h
    exact List.forall_mem_cons.mpr ⟨h.1.functions, ih h.2⟩

/-- A node that is no name and opens no scope notes nothing by itself. -/
theorem node {id : NodeId} {data : Node} {children : List Tree}
    (h : Noted n n' (Tree.placed data.tag 0 children)) (hmute : data.tag.isMute = true) :
    Noted n n' [⟨standing, .node id data children⟩] := by
  simp only [Tag.isMute, Bool.not_eq_true', Bool.or_eq_false_iff, beq_eq_false_iff_ne] at hmute
  obtain ⟨hname, hscope⟩ := hmute
  have hnone : (Tree.node id data children).name? = none := by
    unfold Tree.name?
    split
    · next htag _ => exact absurd htag hname
    · rfl
  refine place h.sorted (.node (fun htag => ?_) (fun _ htag => absurd htag hname)
    (settled_parts h.settled)) (fun htag => ?_) ?_
  · rw [hscope] at htag
    cases htag
  · simp [Tag.opensScope, show data.tag = .kwFunction from htag] at hscope
  · rw [Names.along_silent (by simp [Spot.declared?, hnone]) (by simp [Spot.used?, hnone])]
    exact h.inside (t := .node id data children)

/-- A node over parts. -/
theorem parts {data : Node} {ts : List Tree} (h : Noted n n' (ts.map (Spot.mk .part)))
    (id : NodeId) (ht : data.tag.holdsParts = true) :
    Noted n n' [⟨standing, .node id data ts⟩] :=
  node (Tree.placed_uniform (fun i _ => Tag.standing_of_holdsParts ht i) ts ▸ h) (Tag.isMute_of_holdsParts ht)

/-- A name that is neither declared nor used. -/
theorem name (h : n.Sorted) (id : NodeId) (name : String) (line : Nat)
    (hs : standing = .named ∨ standing = .label) :
    Noted n n [⟨standing, .node id (.identifier name line) []⟩] := by
  refine place h (.node (fun htag => nomatch htag) (fun _ _ => rfl) (by simp))
    (fun htag => nomatch htag) ?_
  rcases hs with rfl | rfl <;> rfl

/-- The use of a name. -/
theorem use (h : n.Sorted) (id : NodeId) (name : String) (line : Nat) :
    Noted n { n with uses := insertName name n.uses }
      [⟨.part, .node id (.identifier name line) []⟩] :=
  place h (.node (fun htag => nomatch htag) (fun _ _ => rfl) (by simp)) (fun htag => nomatch htag)
    rfl

/-- The declaration of a variable and its initial value. -/
theorem declare (h : n.Sorted) (id : NodeId) (name : String) (line : Nat) {value : List Tree}
    (hvalue : Noted { n with vars := appendName n.vars name } n' (value.map (Spot.mk .part))) :
    Noted n n' [⟨.declared, .node id (.identifier name line) value⟩] := by
  rw [← Tree.placed_uniform fun _ _ => (rfl : Tag.identifier.standing _ = .part)] at hvalue
  refine place h (.node (fun htag => nomatch htag) (fun hd => nomatch hd)
    (settled_parts hvalue.settled)) (fun htag => nomatch htag) ?_
  exact hvalue.inside (t := .node id (.identifier name line) value)

/-- A function that lists the names in its body. The code around it notes none. -/
theorem function (h : n.Sorted) {id : NodeId} {data : Node} {body : Tree}
    (hlists : (Tree.node id data [body]).ListsNames) (htag : data.tag = .kwFunction)
    (hbody : (Spot.mk .part body).Settled) : Noted n n [⟨.part, .node id data [body]⟩] := by
  have hname : (Tree.node id data [body]).name? = none := by
    simp [Tree.name?, Tree.tag, Tree.data, htag]
  have hfunction : ((Tree.node id data [body]).tag == .kwFunction) = true := beq_iff_eq.mpr htag
  refine ⟨h, ?_, ?_⟩
  · rw [List.flatMap_singleton, Spot.nodes, Tree.nodes_eq, if_pos hfunction]
    exact (Names.along_silent (by simp [Spot.declared?]) (by simp [Spot.used?, hname])).symm
  · rw [List.forall_mem_singleton]
    refine .node (fun _ => hlists) (fun _ hd => ?_) (by simpa using hbody.functions)
    rw [htag] at hd
    cases hd

/-- Properties that list no names change nothing. -/
theorem put {kind : PropertyKind} {value : PropertyValue} (h : Noted n n' [⟨standing, t⟩])
    (hk : kind.lists = false) : Noted n n' [⟨standing, t.put kind value⟩] := by
  refine ⟨h.sorted, h.along.trans ?_, ?_⟩
  · obtain ⟨id, data, children⟩ := t
    simp only [List.flatMap_singleton, Spot.nodes, Tree.nodes_eq]
    rw [Names.along_cons, Names.along_cons (p := ⟨standing, Tree.put _ _ _⟩)]
    rfl
  · simpa using (h.settled _ (by simp)).put hk

theorem withComments {kind : PropertyKind} (h : Noted n n' [⟨standing, t⟩])
    (hk : kind.lists = false) (comments : List String) :
    Noted n n' [⟨standing, Grammar.withComments kind comments t⟩] := by
  rw [Grammar.withComments]
  split
  · exact h
  · exact h.put hk

end Noted

/-! ## Readers -/

/-- A step that notes no name, in the course of a reading. -/
theorem Preserves.noted {m : Reading α} {f : α → Reading β} {Q : β → State → Prop}
    (hm : Preserves State.names m) (h : Noted n s.names ps)
    (hf : ∀ a s', Noted n s'.names ps → Ensures False (f a) s' Q) :
    Ensures False (m >>= f) s Q :=
  (hm s).bind fun a s' hs' => hf a s' (hs'.symm ▸ h)

/-- A reader for a tree, which notes the names in it where it stands. -/
def Notes (standing : Standing) (m : Reading Tree) : Prop :=
  ∀ s, s.names.Sorted → Ensures False m s fun t s' => Noted s.names s'.names [⟨standing, t⟩]

/-- A reader for trees that all stand for the same. -/
def NotesAll (standing : Standing) (m : Reading (List Tree)) : Prop :=
  ∀ s, s.names.Sorted → Ensures False m s fun ts s' =>
    Noted s.names s'.names (ts.map (Spot.mk standing))

theorem Notes.next {m : Reading Tree} {f : Tree → Reading β} {Q : β → State → Prop}
    (hm : Notes standing m) (h : Noted n s.names ps)
    (hf : ∀ t s', Noted n s'.names (ps ++ [⟨standing, t⟩]) → Ensures False (f t) s' Q) :
    Ensures False (m >>= f) s Q :=
  (hm s h.sorted').bind fun t s' h' => hf t s' (h.append h')

theorem NotesAll.next {m : Reading (List Tree)} {f : List Tree → Reading β}
    {Q : β → State → Prop} (hm : NotesAll standing m) (h : Noted n s.names ps)
    (hf : ∀ ts s', Noted n s'.names (ps ++ ts.map (Spot.mk standing)) → Ensures False (f ts) s' Q) :
    Ensures False (m >>= f) s Q :=
  (hm s h.sorted').bind fun ts s' h' => hf ts s' (h.append h')

/-- A reader after steps that noted nothing. -/
theorem Notes.last {m : Reading Tree} (hm : Notes standing m) (h : Noted n s.names ps) :
    Ensures False m s fun t s' => Noted n s'.names (ps ++ [⟨standing, t⟩]) :=
  (hm s h.sorted').mono fun _ _ h' => h.append h'

theorem makeNode_notes {data : Node} {ts : List Tree}
    (h : Noted n s.names (Tree.placed data.tag 0 ts)) (hmute : data.tag.isMute = true) :
    Ensures False (makeNode data ts) s fun t s' => Noted n s'.names [⟨standing, t⟩] :=
  ensures_freshId' (ensures_pure (h.node hmute))

/-- A node over parts. -/
theorem makeNode_parts {data : Node} {ts : List Tree}
    (h : Noted n s.names (ts.map (Spot.mk .part))) (ht : data.tag.holdsParts = true) :
    Ensures False (makeNode data ts) s fun t s' => Noted n s'.names [⟨standing, t⟩] :=
  ensures_freshId' (ensures_pure (h.parts _ ht))

theorem withJumps_notes (h : Noted n s.names [⟨standing, t⟩]) :
    Ensures False (withJumps t) s fun t s' => Noted n s'.names [⟨standing, t⟩] := by
  refine ensures_get (ensures_pure ?_)
  split
  · exact h
  · exact h.put rfl

/-- A name that is neither declared nor used. -/
theorem notes_name (name : String) (line : Nat) (hs : standing = .named ∨ standing = .label) :
    Notes standing (makeNode (.identifier name line) []) := fun _ h =>
  ensures_freshId' (ensures_pure (.name h _ _ _ hs))

end Grammar
end ScriptPress
