import Mathlib.Data.List.Nodup
import ScriptPress.Proofs.Jumps.Script

/-! # Annotations of scripts

What the properties of a script's nodes say about its jumps and its switches, told by the nodes
around each jump from the innermost out, up to the function it stands in.
-/
namespace ScriptPress
open Grammar (JumpTarget LabelEntry)

namespace Tree

/-- A node in a tree, with the nodes around it, the innermost first. -/
inductive Under (root : Tree) : List Tree → Tree → Prop
  | root : Under root [] root
  | child {above : List Tree} {t c : Tree} :
      Under root above t → c ∈ t.children → Under root (t :: above) c

/-- What an unlabelled break can go to. -/
def isTarget (t : Tree) : Bool := t.tag.isLoop || t.tag == .kwSwitch

/-- The nodes around a place up to its function. -/
def sameFunction (above : List Tree) : List Tree := above.takeWhile (·.tag != .kwFunction)

/-- The labels right around a node. -/
def labelsAbove (above : List Tree) : List Tree := above.takeWhile (·.label?.isSome)

/-- A label stands for a loop, directly or through further labels. -/
inductive Labels : Tree → Tree → Prop
  | loop {label loop : Tree} :
      label.tag = .label → loop ∈ label.children → loop.tag.isLoop = true → Labels label loop
  | further {label inner loop : Tree} :
      label.tag = .label → inner ∈ label.children → Labels inner loop → Labels label loop

/-- The node a jump goes to, by the nodes around it. -/
def GoesTo (above : List Tree) (jump target : Tree) : Prop :=
  match jump.data.labelName? with
  | none =>
    (sameFunction above).find? (if jump.tag == .kwBreak then isTarget else (·.tag.isLoop))
      = some target
  | some name =>
    ∃ label, (sameFunction above).find? (·.label? == some name) = some label
      ∧ if jump.tag == .kwBreak then target = label else Labels label target

/-- Jumps and switches are annotated as the tree says: every jump with where it goes, every node
with the jumps to it in the order of the text, and every switch with its clauses. Properties name
nodes of the tree, each of which has an identity of its own. -/
structure Annotated (root : Tree) : Prop where
  distinct : (ids [root]).Nodup
  target : ∀ above t, Under root above t → t.isJump = true →
    ∃ target, GoesTo above t target ∧ t.data.properties.get? .target = some (.node target.id)
  jumps : ∀ t ∈ root.preorder, t.data.properties.get? .jumps
    = listed? ((root.preorder.filter fun j =>
        j.isJump && j.data.properties.node? .target == some t.id).map id)
  switched : ∀ t ∈ root.preorder, t.Switched
  refs : ∀ t ∈ root.preorder, ∀ id ∈ t.data.refs, ∃ named ∈ root.preorder, named.id = id

/-! ## The nodes around a place -/

variable {root t : Tree} {above : List Tree}

theorem sameFunction_cons (h : t.tag ≠ .kwFunction) (above : List Tree) :
    sameFunction (t :: above) = t :: sameFunction above := by
  rw [sameFunction, List.takeWhile_cons_of_pos (by simpa using h)]
  rfl

theorem sameFunction_function (h : t.tag = .kwFunction) (above : List Tree) :
    sameFunction (t :: above) = [] :=
  List.takeWhile_cons_of_neg (by simp [h])

theorem labelsAbove_cons (h : t.label?.isSome = true) (above : List Tree) :
    labelsAbove (t :: above) = t :: labelsAbove above := by
  simp only [labelsAbove, List.takeWhile_cons, h, if_true]

theorem labelsAbove_none (h : t.label?.isSome = false) (above : List Tree) :
    labelsAbove (t :: above) = [] := by
  simp only [labelsAbove, List.takeWhile_cons, h, Bool.false_eq_true, if_false]

theorem not_function_of_label (h : t.label?.isSome = true) : t.tag ≠ .kwFunction := by
  intro ht
  simp [label?, ht] at h

mutual

theorem mem_preorder_of_child {u c : Tree} (ht : t ∈ preorder u) (hc : c ∈ t.children) :
    c ∈ preorder u := by
  cases u with
  | node id data children =>
    rw [preorder, List.mem_cons] at ht ⊢
    rcases ht with rfl | ht
    · obtain ⟨before, after, rfl⟩ := List.append_of_mem (show c ∈ children from hc)
      rw [preorderAll_append, preorderAll, preorder_eq]
      simp
    · exact Or.inr (mem_preorderAll_of_child ht hc)

theorem mem_preorderAll_of_child {c : Tree} {ts : List Tree} (ht : t ∈ preorderAll ts)
    (hc : c ∈ t.children) : c ∈ preorderAll ts := by
  cases ts with
  | nil => simp [preorderAll] at ht
  | cons u rest =>
    rw [preorderAll, List.mem_append] at ht ⊢
    exact ht.imp (fun ht => mem_preorder_of_child ht hc) fun ht => mem_preorderAll_of_child ht hc

end

theorem Under.mem (h : Under root above t) : t ∈ preorderAll [root] := by
  induction h with
  | root => simp [preorderAll_singleton]
  | child _ hc ih => exact mem_preorderAll_of_child ih hc

theorem Under.around (h : Under root above t) : ∀ u ∈ above, u ∈ preorderAll [root] := by
  induction h with
  | root => simp
  | child h _ ih => simpa using ⟨h.mem, ih⟩

/-- Labels right above a node stand for what it stands for. -/
theorem Under.labels (h : Under root above t) {loop : Tree}
    (ht : t = loop ∧ loop.tag.isLoop = true ∨ Labels t loop) :
    ∀ label ∈ labelsAbove above, Labels label loop := by
  induction h with
  | root => simp [labelsAbove]
  | @child above parent c h hc ih =>
    intro label hlabel
    by_cases hparent : parent.label?.isSome = true
    · have htag : parent.tag = .label := by
        by_contra hne
        simp [label?, hne] at hparent
      have hleads : Labels parent loop := by
        rcases ht with ⟨rfl, hloop⟩ | ht
        · exact .loop htag hc hloop
        · exact .further htag hc ht
      rw [labelsAbove_cons hparent, List.mem_cons] at hlabel
      rcases hlabel with rfl | hlabel
      · exact hleads
      · exact ih (Or.inr hleads) label hlabel
    · rw [labelsAbove_none (by simpa using hparent)] at hlabel
      simp at hlabel

theorem jumpsTo_jumps (id : NodeId) (ts : List Tree) : jumpsTo id (jumps ts)
    = ((preorderAll ts).filter fun j =>
        j.isJump && j.data.properties.node? .target == some id).map Tree.id := by
  rw [jumps]
  induction preorderAll ts with
  | nil => rfl
  | cons j rest ih =>
    rw [List.filter_cons, List.filterMap_cons, jump?]
    cases j.isJump with
    | false => exact ih
    | true =>
      cases htarget : j.data.properties.node? .target with
      | none => exact ih
      | some target =>
        by_cases hid : target = id
        · simpa [jumpsTo, hid] using ih
        · simpa [jumpsTo, hid] using ih

end Tree

/-! ## What a place says of its jumps -/

namespace Env
open Tree

/-- What can be jumped to from a place, by the nodes around it. -/
def around : List Tree → Env
  | [] => {}
  | t :: above => (around above).enter t

theorem enter_cases (env : Env) (t : Tree) :
    t.tag = .kwFunction ∧ env.enter t = {}
    ∨ t.tag.isLoop = true ∧ t.tag ≠ .kwFunction ∧ t.label? = none
      ∧ env.enter t = env.within t.id true
    ∨ t.tag = .kwSwitch ∧ t.label? = none ∧ env.enter t = env.within t.id false
    ∨ (∃ name, t.label? = some name ∧ t.isTarget = false ∧ env.enter t = env.behind name t.id)
    ∨ t.tag ≠ .kwFunction ∧ t.label? = none ∧ t.isTarget = false ∧ env.enter t = env.settled := by
  by_cases hfunction : t.tag = .kwFunction
  · exact Or.inl ⟨hfunction, env.enter_function hfunction⟩
  by_cases hloop : t.tag.isLoop = true
  · refine Or.inr (Or.inl ⟨hloop, hfunction, ?_, env.enter_loop hloop⟩)
    rw [label?, if_neg]
    intro hlabel
    rw [eq_of_beq hlabel] at hloop
    cases hloop
  by_cases hswitch : t.tag = .kwSwitch
  · exact Or.inr (Or.inr (Or.inl ⟨hswitch, by simp [label?, hswitch], env.enter_switch hswitch⟩))
  have hnot : t.isTarget = false := by simp [isTarget, hloop, hswitch]
  cases hlabel : t.label? with
  | some name => exact Or.inr (Or.inr (Or.inr (Or.inl ⟨name, rfl, hnot, env.enter_label hlabel⟩)))
  | none =>
    refine Or.inr (Or.inr (Or.inr (Or.inr ⟨hfunction, rfl, hnot, ?_⟩)))
    simp [enter, hfunction, hloop, hswitch, hlabel]

theorem around_targets (above : List Tree) : (around above).targets
    = ((sameFunction above).filter isTarget).map fun t => ⟨t.id, t.tag.isLoop⟩ := by
  induction above with
  | nil => rfl
  | cons t above ih =>
    rw [around]
    rcases (around above).enter_cases t with ⟨h, he⟩ | ⟨hloop, h, -, he⟩ | ⟨h, -, he⟩
      | ⟨name, hname, hnot, he⟩ | ⟨h, -, hnot, he⟩
    · rw [he, sameFunction_function h]
      rfl
    · rw [he, sameFunction_cons h, List.filter_cons_of_pos (by simp [isTarget, hloop]),
        List.map_cons, hloop, ← ih]
      rfl
    · rw [he, sameFunction_cons (by simp [h]), List.filter_cons_of_pos (by simp [isTarget, h]),
        List.map_cons, ← ih, h]
      rfl
    · rw [he, sameFunction_cons (not_function_of_label (by simp [hname])),
        List.filter_cons_of_neg (by simp [hnot]), ← ih]
      rfl
    · rw [he, sameFunction_cons h, List.filter_cons_of_neg (by simp [hnot]), ← ih]
      rfl

theorem before_name (l : LabelEntry) (pending : List NodeId) (loop : NodeId) :
    ((l.before pending loop).name, (l.before pending loop).id) = (l.name, l.id) := by
  rw [LabelEntry.before]
  split <;> rfl

theorem around_labels (above : List Tree) : (around above).labels.map (fun l => (l.name, l.id))
    = (sameFunction above).filterMap fun t => t.label?.map (·, t.id) := by
  induction above with
  | nil => rfl
  | cons t above ih =>
    rw [around]
    rcases (around above).enter_cases t with ⟨h, he⟩ | ⟨-, h, hlabel, he⟩ | ⟨h, hlabel, he⟩
      | ⟨name, hname, -, he⟩ | ⟨h, hlabel, -, he⟩
    · rw [he, sameFunction_function h]
      rfl
    · rw [he, sameFunction_cons h, List.filterMap_cons_none (by simp [hlabel]), ← ih]
      simp only [within, if_true, List.map_map, Function.comp_def, before_name]
    · rw [he, sameFunction_cons (by simp [h]), List.filterMap_cons_none (by simp [hlabel]), ← ih]
      rfl
    · rw [he, sameFunction_cons (not_function_of_label (by simp [hname])),
        List.filterMap_cons_some (by rw [hname]; rfl), ← ih]
      rfl
    · rw [he, sameFunction_cons h, List.filterMap_cons_none (by simp [hlabel]), ← ih]
      rfl

/-- The labels that a loop has right before it are those right above it. -/
theorem around_pending (above : List Tree) : ∀ id ∈ (around above).pending,
    ∃ label ∈ labelsAbove above, label.id = id := by
  induction above with
  | nil => simp [around]
  | cons t above ih =>
    rw [around]
    rcases (around above).enter_cases t with ⟨-, he⟩ | ⟨-, -, -, he⟩ | ⟨-, -, he⟩
      | ⟨name, hname, -, he⟩ | ⟨-, -, -, he⟩
    · simp [he]
    · simp [he, within]
    · simp [he, within]
    · intro id hid
      rw [he, behind, List.mem_append, List.mem_singleton] at hid
      rw [labelsAbove_cons (by simp [hname])]
      rcases hid with hid | rfl
      · obtain ⟨label, hlabel, hid⟩ := ih id hid
        exact ⟨label, List.mem_cons_of_mem _ hlabel, hid⟩
      · exact ⟨t, List.mem_cons_self .., rfl⟩
    · simp [he, settled]

theorem mem_sameFunction {label : Tree} (h : label ∈ labelsAbove above) :
    label ∈ sameFunction above := by
  induction above with
  | nil => simp [labelsAbove] at h
  | cons t above ih =>
    by_cases ht : t.label?.isSome = true
    · rw [labelsAbove_cons ht, List.mem_cons] at h
      rw [sameFunction_cons (not_function_of_label ht), List.mem_cons]
      exact h.imp_right ih
    · rw [labelsAbove_none (by simpa using ht)] at h
      simp at h

/-- A label in force stands for no other loop than the label does. -/
theorem around_loops (h : Under root above t) : ∀ l ∈ (around above).labels, ∀ id,
    l.loop? = some id → ∃ label ∈ sameFunction above, label.id = l.id
      ∧ ∃ loop, Labels label loop ∧ loop.id = id := by
  induction h with
  | root => simp [around]
  | @child above t c h _ ih =>
    have hout : t.tag ≠ .kwFunction → ∀ l ∈ (around above).labels, ∀ id, l.loop? = some id →
        ∃ label ∈ sameFunction (t :: above), label.id = l.id
          ∧ ∃ loop, Labels label loop ∧ loop.id = id := by
      intro ht l hl id hid
      obtain ⟨label, hlabel, hloop⟩ := ih l hl id hid
      rw [sameFunction_cons ht]
      exact ⟨label, List.mem_cons_of_mem _ hlabel, hloop⟩
    rw [around]
    rcases (around above).enter_cases t with ⟨-, he⟩ | ⟨hloop, ht, -, he⟩ | ⟨ht, -, he⟩
      | ⟨name, hname, -, he⟩ | ⟨ht, -, -, he⟩
    · simp [he]
    · intro l' hl' id hid
      rw [he, within, if_pos rfl, List.mem_map] at hl'
      obtain ⟨l, hl, rfl⟩ := hl'
      by_cases hpending : (around above).pending.contains l.id = true
      · rw [LabelEntry.before, if_pos hpending] at hid ⊢
        obtain ⟨label, hlabel, hlid⟩ :=
          around_pending above l.id (List.contains_iff_mem.mp hpending)
        rw [sameFunction_cons ht]
        refine ⟨label, List.mem_cons_of_mem _ (mem_sameFunction hlabel), hlid, t, ?_, ?_⟩
        · exact h.labels (Or.inl ⟨rfl, hloop⟩) label hlabel
        · exact Option.some.inj hid
      · rw [LabelEntry.before, if_neg hpending] at hid ⊢
        exact hout ht l hl id hid
    · rw [he]
      exact hout (by simp [ht])
    · intro l hl id hid
      rw [he, behind, List.mem_cons] at hl
      rcases hl with rfl | hl
      · cases hid
      · exact hout (not_function_of_label (by simp [hname])) l hl id hid
    · rw [he]
      exact hout ht

/-- The aim of a jump without a label. -/
theorem aim_unlabelled {tag : Tag} {id : NodeId} (h : (around above).aim tag none = some id) :
    ∃ target, (sameFunction above).find?
        (if tag == .kwBreak then isTarget else (·.tag.isLoop)) = some target ∧ target.id = id := by
  simp only [aim, around_targets] at h
  split at h
  · next hbreak =>
    rw [if_pos hbreak]
    rw [List.head?_map, List.head?_filter, Option.map_map] at h
    exact Option.map_eq_some_iff.mp h
  · next hbreak =>
    rw [if_neg hbreak]
    rw [List.find?_map, List.find?_filter, Option.map_map] at h
    obtain ⟨target, htarget, hid⟩ := Option.map_eq_some_iff.mp h
    refine ⟨target, ?_, hid⟩
    rw [← htarget]
    apply congrArg (fun p => (sameFunction above).find? p)
    funext u
    cases hloop : u.tag.isLoop <;> simp [isTarget, hloop]

/-- The label in force with a name is the innermost label of that name. -/
theorem around_find (above : List Tree) (name : String) :
    ((around above).labels.find? (·.name == name)).map (·.id)
      = ((sameFunction above).find? (·.label? == some name)).map (·.id) := by
  have hfind := congrArg (fun ls : List (String × NodeId) =>
    (ls.find? (·.1 == name)).map (·.2)) (around_labels above)
  simp only [List.find?_map, List.find?_filterMap, Option.map_map] at hfind
  refine (show _ = _ from hfind).trans ?_
  have hp : (fun t : Tree => (t.label?.map (·, t.id)).any (·.1 == name))
      = (·.label? == some name) := by
    funext u
    cases u.label? <;> rfl
  rw [hp]
  cases hu : (sameFunction above).find? (·.label? == some name) with
  | none => rfl
  | some u =>
    have hname : u.label? = some name := by simpa using List.find?_some hu
    simp [hname]

/-- What a place says of a jump is where the jump goes. -/
theorem goesTo_of_aim (hroot : (ids [root]).Nodup) (h : Under root above t) {id : NodeId}
    (haim : (around above).aim t.tag t.data.labelName? = some id) :
    ∃ target, GoesTo above t target ∧ target.id = id := by
  unfold GoesTo
  cases hlabel : t.data.labelName? with
  | none =>
    rw [hlabel] at haim
    exact aim_unlabelled haim
  | some name =>
    rw [hlabel] at haim
    obtain ⟨l, hl, haim⟩ := Option.bind_eq_some_iff.mp haim
    have hfind := around_find above name
    rw [hl, Option.map_some] at hfind
    obtain ⟨label, hlabel, hid⟩ := Option.map_eq_some_iff.mp hfind.symm
    by_cases hbreak : (t.tag == .kwBreak) = true
    · rw [if_pos hbreak] at haim
      exact ⟨label, ⟨label, hlabel, by rw [if_pos hbreak]⟩, hid.trans (Option.some.inj haim)⟩
    · rw [if_neg hbreak] at haim
      obtain ⟨label', hlabel', hid', loop, hloop, hloopId⟩ :=
        around_loops h l (List.mem_of_find?_eq_some hl) id haim
      have hsame : label' = label := by
        refine List.inj_on_of_nodup_map hroot (h.around _ ?_) (h.around _ ?_) (hid'.trans hid.symm)
        · exact (List.takeWhile_sublist _).subset hlabel'
        · exact (List.takeWhile_sublist _).subset (List.mem_of_find?_eq_some hlabel)
      exact ⟨loop, ⟨label, hlabel, by rw [if_neg hbreak]; exact hsame ▸ hloop⟩, hloopId⟩

end Env

theorem Aimed.under {root t : Tree} {above : List Tree} (h : Aimed {} root)
    (ht : Tree.Under root above t) : Aimed (Env.around above) t := by
  induction ht with
  | root => exact h
  | child _ hc ih => exact ih.inside _ hc

namespace Script

theorem tame_opening (settings : ReadSettings) (text : String) :
    Grammar.State.Tame (opening settings text) :=
  ⟨fun id hid => by simp [Grammar.State.known, Grammar.State.goals, opening] at hid,
    fun j hj => by simp [Grammar.State.ledger, opening] at hj⟩

/-- In a script that was read every jump names the statement it goes to, every statement the jumps
to it, and every switch its clauses. -/
theorem read_annotated {settings : ReadSettings} {text : String} {script : Script}
    (h : read settings text = .ok script) : Tree.Annotated script.tree := by
  unfold read at h
  dsimp only at h
  split at h
  · cases h
  next root s hrun =>
  obtain rfl := Except.ok.inj h
  obtain ⟨htook, -⟩ := Grammar.ensures_ok (Grammar.script_counts
    (Grammar.steers_nested (text.length + 1)) settings.source settings.startLine
    (tame_opening settings text) rfl rfl) hrun
  have htally : Tally [] [] _ _ [root] := htook.tally
  have hpre : root.preorder = Tree.preorderAll [root] := by
    rw [Tree.preorderAll, Tree.preorderAll, List.append_nil]
  refine ⟨htally.nodup, fun above t ht hjump => ?_, fun t ht => ?_, fun t ht => ?_,
    fun t ht id hid => ?_⟩
  · have haimed : Aimed {} root := htook.all root (by simp)
    obtain ⟨id, hid, haim⟩ := (haimed.under ht).here hjump
    obtain ⟨target, hgoes, rfl⟩ := Env.goesTo_of_aim htally.nodup ht haim
    exact ⟨target, hgoes, hid⟩
  · rw [hpre] at ht ⊢
    rw [htally.noted t ht, Tree.jumpsTo_jumps]
  · exact htally.switched t (hpre ▸ ht)
  · rcases htally.refs t (hpre ▸ ht) id hid with hmem | hmem
    · exact hpre ▸ List.mem_map.mp hmem
    · cases hmem

/-- Around a switch stands a loop with two labels. The break leaves the switch, and the continue
goes on with the loop, by the outer label. -/
theorem read_annotated_labelled : ∃ script,
    read {} "a:b:for(;;)switch(c)\x7bcase 1:break;default:continue a\x7d" = .ok script
      ∧ script.tree.Annotated
      ∧ Tree.jumps [script.tree] = [(⟨11⟩, ⟨15⟩), (⟨10⟩, ⟨17⟩)] := by
  have hread : ((read {} "a:b:for(;;)switch(c)\x7bcase 1:break;default:continue a\x7d").toOption.map
      fun script => Tree.jumps [script.tree]) = some [(⟨11⟩, ⟨15⟩), (⟨10⟩, ⟨17⟩)] := by
    decide +kernel
  cases h : read {} "a:b:for(;;)switch(c)\x7bcase 1:break;default:continue a\x7d" with
  | error problem =>
    rw [h] at hread
    cases hread
  | ok script =>
    rw [h] at hread
    exact ⟨script, rfl, read_annotated h, Option.some.inj hread⟩

end Script
end ScriptPress
