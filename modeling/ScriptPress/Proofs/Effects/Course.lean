import ScriptPress.Proofs.Effects.Parts
import ScriptPress.Proofs.Jumps.Expression

/-! # Reporting idle statements

What a part of a reading reports goes along with the trees that are read. From some trees that were
read before it to those it leads to, the concerns about statements without an effect are those about
the idle statements in these trees, in their order.
-/
namespace ScriptPress

/-- The nodes that are no name and no expression statement. -/
def Tag.isSilent (tag : Tag) : Bool := tag != .identifier && tag != .exprStatement

namespace Tree
variable {t : Tree} {ts : List Tree} {id : NodeId} {data : Node} {children : List Tree}

theorem postorderAll_eq (ts : List Tree) : postorderAll ts = ts.flatMap postorder := by
  induction ts with
  | nil => rfl
  | cons t ts ih => rw [postorderAll, ih, List.flatMap_cons]

theorem idleLines_node : (node id data children).idleLines
    = children.flatMap idleLines ++ if isIdle (node id data children) then [data.line] else [] := by
  have hparts : ((postorderAll children).filter isIdle).map line = children.flatMap idleLines := by
    rw [postorderAll_eq, List.filter_flatMap, List.map_flatMap]
    rfl
  rw [idleLines, postorder, List.filter_append, List.map_append, hparts]
  cases h : isIdle (node id data children) <;> simp [h, line, Tree.data]

/-- A statement of a single expression. -/
theorem idleLines_exprStatement {value : Tree} (hdata : data.tag = .exprStatement) :
    (node id data [value]).idleLines
      = value.idleLines ++ if value.hasEffect then [] else [data.line] := by
  rw [idleLines_node, List.flatMap_singleton]
  cases h : value.hasEffect <;> simp [isIdle, tag, Tree.data, Tree.children, hdata, h]

/-- A name has nothing below it. -/
def Lone (t : Tree) : Prop := t.tag = .identifier → t.children = []

/-- The idle statements in a tree are those in some trees. -/
structure Over (t : Tree) (ts : List Tree) : Prop where
  idle : t.idleLines = ts.flatMap idleLines
  lone : t.Lone

theorem Lone.over (h : t.Lone) : t.Over [t] := ⟨(List.flatMap_singleton ..).symm, h⟩

theorem over_node (h : data.tag.isSilent = true) : (node id data children).Over children := by
  simp only [Tag.isSilent, Bool.and_eq_true, bne_iff_ne] at h
  refine ⟨?_, fun htag => absurd htag h.1⟩
  rw [idleLines_node, if_neg, List.append_nil]
  simp [isIdle, tag, Tree.data, h.2]

/-- Without children there is nothing idle. -/
theorem over_leaf : (node id data []).Over [] := by
  refine ⟨?_, fun _ => rfl⟩
  simp [idleLines_node, isIdle, Tree.children]

theorem Over.put {kind : PropertyKind} {value : PropertyValue} (h : t.Over ts) :
    (t.put kind value).Over ts := by
  obtain ⟨id, data, children⟩ := t
  refine ⟨Eq.trans ?_ h.idle, h.lone⟩
  rw [put, mapData, idleLines_node, idleLines_node]
  rfl

theorem Over.withComments {kind : PropertyKind} (h : t.Over ts) (comments : List String) :
    (Grammar.withComments kind comments t).Over ts := by
  rw [Grammar.withComments]
  split
  · exact h
  · exact h.put

/-- Nothing is idle in a name. -/
theorem Lone.idleLines (hlone : t.Lone) (htag : t.tag = .identifier) : t.idleLines = [] := by
  obtain ⟨id, data, children⟩ := t
  obtain rfl : children = [] := hlone htag
  exact over_leaf.idle

end Tree

namespace Grammar

/-- What the turn of a loop leads to, with the trees read up to its end. -/
def Turn.trees {α β : Type} (again : α → List Tree) (done : β → List Tree) :
    Turn α β → List Tree
  | .again a => again a
  | .done b => done b

/-- The idle statements of some trees are reported after some lines. -/
def Reported (n : List Nat) (ts : List Tree) (s : State) : Prop :=
  s.reported = n ++ ts.flatMap Tree.idleLines

/-- A step from some trees that were read before it to those it leads to, with a value as
described. -/
def Reports {α : Type} (before : List Tree) (after : α → List Tree) (P : α → Prop)
    (m : Reading α) : Prop :=
  ∀ n s, Reported n before s → Ensures False m s fun a s' => Reported n (after a) s' ∧ P a

/-- A reader for a tree. -/
def ReportsTree (m : Reading Tree) : Prop := Reports [] (fun t => [t]) Tree.Lone m

/-- A reader for trees one after the other. -/
def ReportsAll (m : Reading (List Tree)) : Prop := Reports [] (fun ts => ts) (fun _ => True) m

/-- One more turn over a list of trees. -/
def ReportsItems (before : List Tree) (m : Reading (Turn (List Tree) (List Tree))) : Prop :=
  Reports before (Turn.trees (fun ts => ts) fun ts => ts)
    (Turn.Gives (fun _ => True) fun _ => True) m

/-- One more turn over an expression. -/
def ReportsTurn (before : List Tree) (m : Reading (Turn Tree Tree)) : Prop :=
  Reports before (Turn.trees (fun t => [t]) fun t => [t]) (Turn.Gives Tree.Lone Tree.Lone) m

section
variable {α β : Type} {before : List Tree} {after : α → List Tree} {last : β → List Tree}
  {P : α → Prop} {Q : β → Prop} {m : Reading α} {f : α → Reading β} {t : Tree} {ts : List Tree}
  {data : Node} {id : NodeId}

/-! ## Rules for the shape of a reading -/

theorem reports_pure {a : α} (h : P a) (ha : after a = before) :
    Reports before after P (pure a : Reading α) := fun _ _ hs => ensures_pure ⟨ha ▸ hs, h⟩

theorem reports_fail (p : Problem) : Reports before after P (fail p : Reading α) :=
  fun _ _ _ => ensures_fail

theorem reports_failAt (line : Nat) (p : Problem) :
    Reports before after P (failAt line p : Reading α) := fun _ _ _ => ensures_failAt

theorem reports_unexpected : Reports before after P (unexpected : Reading α) :=
  fun _ _ _ => ensures_unexpected

theorem Reports.bind (hm : Reports before after P m)
    (hf : ∀ a, P a → Reports (after a) last Q (f a)) : Reports before last Q (m >>= f) :=
  fun n s hs => (hm n s hs).bind fun a s' h => hf a h.2 n s' h.1

/-- A step that reports nothing. -/
theorem Preserves.reports {m : Reading α} (hm : Preserves State.reported m)
    (hf : ∀ a, Reports before last Q (f a)) : Reports before last Q (m >>= f) :=
  fun n s hs => (hm s).bind fun a s' hs' => hf a n s' (hs'.trans hs)

/-- What was read in front plays no part. -/
theorem Reports.under (front : List Tree) (hm : Reports before after P m) :
    Reports (front ++ before) (fun a => front ++ after a) P m := by
  intro n s hs
  have hstart : Reported (n ++ front.flatMap Tree.idleLines) before s := by
    rw [Reported, hs, List.flatMap_append, List.append_assoc]
  refine (hm _ s hstart).mono fun a s' ⟨hs', ha⟩ => ⟨?_, ha⟩
  rw [Reported, hs', List.flatMap_append, List.append_assoc]

theorem Reports.behind (hm : Reports [] after P m) :
    Reports before (fun a => before ++ after a) P m := by
  have h := hm.under before
  rwa [List.append_nil] at h

theorem ReportsTree.next {m : Reading Tree} {f : Tree → Reading β} (hm : ReportsTree m)
    (hf : ∀ t, Tree.Lone t → Reports (before ++ [t]) last Q (f t)) :
    Reports before last Q (m >>= f) := hm.behind.bind hf

theorem ReportsAll.next {m : Reading (List Tree)} {f : List Tree → Reading β} (hm : ReportsAll m)
    (hf : ∀ ts, Reports (before ++ ts) last Q (f ts)) : Reports before last Q (m >>= f) :=
  hm.behind.bind fun ts _ => hf ts

theorem reports_get {f : State → Reading β} (h : ∀ s, Reports before last Q (f s)) :
    Reports before last Q (get >>= f) := fun n s hs => ensures_get (h s n s hs)

theorem reports_modify {change : State → State} {f : Unit → Reading β}
    (hchange : ∀ s, (change s).reported = s.reported) (h : Reports before last Q (f ())) :
    Reports before last Q (modify change >>= f) :=
  fun n s hs => ensures_modify (h n _ ((hchange s).trans hs))

theorem reports_getSet {change : State → State} {f : State → Unit → Reading β}
    (hchange : ∀ s, (change s).reported = s.reported) (h : ∀ s, Reports before last Q (f s ())) :
    Reports before last Q (get >>= fun s => set (change s) >>= f s) :=
  fun n s hs => ensures_get (ensures_set (h s n _ ((hchange s).trans hs)))

theorem reports_check {tag : Tag} {f : Bool → Reading β} (h : ∀ b, Reports before last Q (f b)) :
    Reports before last Q (check tag >>= f) := fun n s hs => ensures_check (h _ n s hs)

theorem reports_ifCheck {tag : Tag} {yes no : Reading β} (hyes : Reports before last Q yes)
    (hno : Reports before last Q no) :
    Reports before last Q (check tag >>= fun b => if b = true then yes else no) :=
  fun n s hs => ensures_ifCheck (fun _ => hyes n s hs) fun _ => hno n s hs

theorem reports_iterate (after : α → List Tree) {step : α → Reading (Turn α β)}
    (h : ∀ a, P a → Reports (after a) (Turn.trees after last) (Turn.Gives P Q) (step a))
    (fuel : Nat) {a : α} (ha : P a) : Reports (after a) last Q (iterate step fuel a) := by
  intro n s hs
  refine ensures_iterate (I := fun a s => Reported n (after a) s ∧ P a) (fun a s ⟨hs, ha⟩ => ?_)
    fuel ⟨hs, ha⟩
  refine (h a ha n s hs).mono fun turn s' hturn => ?_
  cases turn with
  | again a => exact hturn
  | done b => exact hturn

theorem reports_repeatItems {g : Grammar}
    {step : List Tree → Reading (Turn (List Tree) (List Tree))}
    (h : ∀ ts, ReportsItems ts (step ts)) :
    Reports ts (fun ts => ts) (fun _ => True) (g.repeatTurns step ts) :=
  reports_iterate (fun ts => ts) (P := fun _ => True) (fun ts _ => h ts) _ trivial

theorem reports_repeatTurns {g : Grammar} {step : Tree → Reading (Turn Tree Tree)}
    (h : ∀ t, t.Lone → ReportsTurn [t] (step t)) (ht : t.Lone) :
    Reports [t] (fun t => [t]) Tree.Lone (g.repeatTurns step t) :=
  reports_iterate (fun t => [t]) h _ ht

/-! ## Nodes -/

theorem preserves_freshId : Preserves State.reported freshId := fun _ => ensures_of_ok rfl rfl

theorem reported_over (before : List Tree) {n : List Nat} {s : State} (h : t.Over ts)
    (hs : Reported n (before ++ ts) s) : Reported n (before ++ [t]) s := by
  rw [Reported, hs, List.flatMap_append, List.flatMap_append, List.flatMap_singleton, h.idle]

theorem reports_over (h : t.Over ts) :
    Reports ts (fun t => [t]) Tree.Lone (pure t : Reading Tree) :=
  fun _ _ hs => ensures_pure ⟨reported_over [] h hs, h.lone⟩

/-- A name alone leaves nothing behind. -/
theorem Reports.forget (hm : Reports [] after P m) (ht : t.idleLines = []) :
    Reports [t] after P m := fun n s hs => hm n s (by simpa [Reported, ht] using hs)

/-- A node over all that was read. -/
theorem reports_node (h : data.tag.isSilent = true) :
    Reports before (fun t => [t]) Tree.Lone (pure (.node id data before) : Reading Tree) :=
  reports_over (Tree.over_node h)

theorem reports_makeNode (h : data.tag.isSilent = true) :
    Reports before (fun t => [t]) Tree.Lone (makeNode data before) :=
  preserves_freshId.reports fun _ => reports_node h

/-- A node without children. -/
theorem reports_leaf : ReportsTree (makeNode data []) :=
  preserves_freshId.reports fun _ => reports_over Tree.over_leaf

theorem reports_withJumps (h : t.Over before) :
    Reports before (fun t => [t]) Tree.Lone (withJumps t) := by
  refine reports_get fun s => ?_
  dsimp only
  split
  · exact reports_over h
  · exact reports_over h.put

/-! ## Surroundings -/

theorem reports_withTarget {id : NodeId} {isLoop : Bool} {pending : List NodeId}
    (hm : Reports before after P m) : Reports before after P (withTarget id isLoop pending m) :=
  fun n s hs => ensures_get (ensures_set ((hm n (s.within id isLoop pending) hs).bind
    fun _ _ h => ensures_modify (ensures_pure h)))

theorem reports_inFunction {id : NodeId} (hm : Reports before after P m) :
    Reports before (fun r => after r.1) (fun r => P r.1) (inFunction id m) :=
  fun n s hs => ensures_get (ensures_set ((hm n (s.inside id) hs).bind
    fun _ _ h => ensures_get (ensures_modify (ensures_pure h))))

theorem preserves_modifyScope (change : Scope → Scope) :
    Preserves State.reported (modifyScope change) := preserves_modify fun _ => rfl

end
end Grammar
end ScriptPress
