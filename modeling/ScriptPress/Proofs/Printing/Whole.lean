import ScriptPress.FunctionIndex
import ScriptPress.Proofs.Jumps.Place
import ScriptPress.Proofs.Printing.StatementFlow
import ScriptPress.Proofs.Reading.Script
import ScriptPress.Proofs.Shape.Children
import ScriptPress.Proofs.Shape.Links

/-! # Whole trees

The tree of a script that was read is whole: each of its nodes is in one place only, linked to its
neighbours, and has the children of its type. Whatever is written of it, of a function in it or of
a function's body, no part is missing.
-/
namespace ScriptPress
open Render

/-- A tree with everything that writing it asks for. -/
structure Tree.Whole (t : Tree) : Prop where
  root : t.tag = .script
  distinct : (Tree.ids [t]).Nodup
  linked : (Forest.ofTree t).Holds none t
  regained : (Forest.ofTree t).tree t.id = t
  shaped : ∀ u ∈ t.preorder, u.fits = true
  written : ∀ o, .missing ∉ scriptSteps o t
  functions : ∀ o, ∀ e ∈ (FunctionIndex.ofTree t).entries,
    .missing ∉ e.steps o ∧ .missing ∉ e.bodySteps o

variable {d : Dialect} {t : Tree} {o : RenderOptions}

/-! ## Functions -/

namespace FunctionIndex

theorem mem_collectFrom {nodes : List Tree} {fuel depth next : Nat} {parent? : Option Nat}
    {ids : List NodeId} {e : FunctionEntry}
    (he : e ∈ collectFrom nodes fuel depth parent? next ids) :
    e.tree ∈ nodes ∧ e.tree.data.function? = some e.data := by
  induction fuel generalizing depth parent? next ids with
  | zero => simp [collectFrom] at he
  | succ fuel ih =>
    cases ids with
    | nil => simp [collectFrom] at he
    | cons id rest =>
      rw [collectFrom] at he
      split at he
      · exact ih he
      next t hfind =>
      split at he
      · exact ih he
      next data hdata =>
      simp only [List.cons_append, List.mem_cons, List.mem_append] at he
      rcases he with rfl | he | he
      · exact ⟨List.mem_of_find?_eq_some hfind, hdata⟩
      · exact ih he
      · exact ih he

end FunctionIndex

theorem Node.function?_of_core {n : Node} {core : Core} (h : n.core = core) {f : FunctionData}
    (hf : n.function? = some f) : core.payload = .function f := by
  subst h
  cases hp : n.payload <;> simp_all [function?, core]

/-- A node with a function is a function over its body. -/
theorem Made.function {f : FunctionData} (h : Made d t) (hf : t.data.function? = some f) :
    ∃ role id data body, t = .node id data [body] ∧ data.payload = .function f
      ∧ IsFunction d f role body ∧ Formed d (.block .body true) body := by
  have hpayload := fun core (hcore : t.data.core = core) => Node.function?_of_core hcore hf
  cases h with
  | key h =>
    cases h with
    | name hdata | string hdata | number hdata => cases hpayload _ hdata.core
  | named h =>
    obtain ⟨hdata, -⟩ := h
    cases hpayload _ hdata.core
  | formed h =>
    induction h with
    | function hdata hfunction hbody | functionStatement hdata hfunction hbody =>
      cases hpayload _ hdata.core
      exact ⟨_, _, _, _, rfl, congrArg Core.payload hdata.core, hfunction, hbody⟩
    | element _ ih | part _ ih | exprStart _ ih => exact ih hf hpayload
    | leaf hdata hleaf => cases hleaf <;> cases hpayload _ hdata.core
    | array hdata | object hdata | unary hdata | step hdata | assign hdata | conditional hdata
    | binary hdata | comma hdata | call hdata | construct hdata | property hdata | index hdata
    | hole hdata | declared hdata | initialised hdata | noPart hdata | noStart hdata
    | varStart hdata | block hdata | blockStatement hdata | var hdata | empty hdata | ifThen hdata
    | ifElse hdata | «while» hdata | doWhile hdata | «for» hdata | forIn hdata | jump hdata
    | jumpTo hdata | «return» hdata | returnValue hdata | «with» hdata | switch hdata | case hdata
    | default hdata | throw hdata | «try» hdata | «catch» hdata | guarded hdata | «finally» hdata
    | label hdata | exprStatement hdata =>
      cases hpayload _ hdata.core

/-- A function of a script is written without a missing part, and so is its body. -/
theorem FunctionEntry.complete (e : FunctionEntry) (h : Made d e.tree) (o : RenderOptions)
    (hf : e.tree.data.function? = some e.data) :
    .missing ∉ e.steps o ∧ .missing ∉ e.bodySteps o := by
  obtain ⟨role, id, data, body, htree, hpayload, hfunction, hbody⟩ := h.function hf
  have hsteps : e.steps o = functionAt o e.data body := by
    rw [FunctionEntry.steps, htree]
    exact functionSteps_eq hpayload
  have hpasses := functionAt_passes (o := o) hfunction hbody.flows
  have hflows := hpasses none false [] (by simp) fun _ _ => trivial
  rw [List.append_nil, ← hsteps] at hflows
  refine ⟨hflows.complete, ?_⟩
  rw [FunctionEntry.bodySteps, htree]
  cases hbody with
  | block hdata _ hall => exact (statements_flow hdata.trailing hall o).complete

/-! ## Scripts -/

theorem IsScript.root (h : IsScript d t) : t.tag = .script := by
  obtain ⟨hdata, -, -⟩ := h
  exact tag_node hdata.core

theorem IsScript.functions_complete (h : IsScript d t) (o : RenderOptions) :
    ∀ e ∈ (FunctionIndex.ofTree t).entries, .missing ∉ e.steps o ∧ .missing ∉ e.bodySteps o := by
  intro e he
  obtain ⟨hnode, hf⟩ := FunctionIndex.mem_collectFrom he
  rw [Tree.preorder_eq, List.mem_cons] at hnode
  rcases hnode with hroot | hnode
  · obtain ⟨hdata, -, -⟩ := h
    rw [hroot] at hf
    cases Node.function?_of_core hdata.core hf
  · exact e.complete (h.inside hnode) o hf

namespace Script

/-- No two nodes of a script that was read have one identity. -/
theorem read_distinct {settings : ReadSettings} {text : String} {script : Script}
    (h : read settings text = .ok script) : (Tree.ids [script.tree]).Nodup := by
  unfold read at h
  dsimp only at h
  split at h
  · cases h
  next root s hrun =>
  obtain rfl := Except.ok.inj h
  obtain ⟨htook, -⟩ := Grammar.ensures_ok (Grammar.script_counts
    (Grammar.steers_nested (text.length + 1)) settings.source settings.startLine
    (tame_opening settings text) rfl rfl) hrun
  exact htook.tally.nodup

/-- The tree of a script that was read is whole. -/
theorem read_whole {settings : ReadSettings} {text : String} {script : Script}
    (h : read settings text = .ok script) : script.tree.Whole := by
  obtain ⟨hscript, -⟩ := Grammar.read_sound h
  have hdistinct := read_distinct h
  have hlinked := Forest.holds_ofTree hdistinct
  exact
    { root := hscript.root
      distinct := hdistinct
      linked := hlinked
      regained := hlinked.tree hdistinct
      shaped := hscript.fits
      written := fun o => (hscript.flows o).complete
      functions := fun o => hscript.functions_complete o }

/-- A script with a function in it. -/
theorem read_whole_function : ∃ script,
    read {} "function f(a)\x7bfor(var b in a)return[,b]\x7d" = .ok script
      ∧ script.tree.Whole ∧ (FunctionIndex.ofTree script.tree).size = 1 := by
  have hread : ((read {} "function f(a)\x7bfor(var b in a)return[,b]\x7d").toOption.map
      fun script => (FunctionIndex.ofTree script.tree).size) = some 1 := by
    decide +kernel
  cases h : read {} "function f(a)\x7bfor(var b in a)return[,b]\x7d" with
  | error problem =>
    rw [h] at hread
    cases hread
  | ok script =>
    rw [h] at hread
    exact ⟨script, rfl, read_whole h, Option.some.inj hread⟩

end Script
end ScriptPress
