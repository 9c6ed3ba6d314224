import ScriptPress.Proofs.Scopes.Statement

/-! # Names in scripts

In a script that was read, the lists of names of the script and of its functions are what the tree
says: the variables declared and the names used inside them, but not in functions inside them.
-/
namespace ScriptPress
namespace Grammar

variable {g : Grammar} {s : State}

theorem notesNames_step (hg : NotesNames g) : NotesNames (step g) where
  statement := statementOf_notes hg
  assignment := assignmentOf_notes hg
  expression := expressionOf_notes hg
  unary := unaryOf_notes hg
  member := memberOf_notes hg

theorem notesNames_nested (depth : Nat) : NotesNames (nested depth) := by
  induction depth with
  | zero =>
    exact ⟨fun _ _ _ => ensures_unexpected, fun _ _ _ => ensures_unexpected,
      fun _ _ _ => ensures_unexpected, fun _ _ => ensures_unexpected,
      fun _ _ _ => ensures_unexpected⟩
  | succ depth ih =>
    have hstep := notesNames_step ih
    exact ⟨hstep.statement, hstep.assignment, hstep.expression, hstep.unary, hstep.member⟩

theorem script_lists (hg : NotesNames g) (source : String) (line : Nat) (hs : s.names = {}) :
    Ensures False (g.script source line) s fun t _ =>
      ∀ f ∈ t.preorder, f.tag.opensScope = true → f.ListsNames := by
  have hstart : Noted {} s.names [] := hs.symm ▸ .start .nil
  refine preserves_advance.noted hstart fun _ s₁ h₁ => ensures_freshId' ?_
  have hopening : Noted {} s₁.opening.names (([] : List Tree).map (Spot.mk .part)) := h₁
  refine (itemsUntil_notes (hg.statement true) hopening).bind fun statements s₂ h₂ => ?_
  refine preserves_takeComments.noted h₂ fun comments s₃ h₃ => ensures_get (ensures_pure ?_)
  let root : Tree :=
    .node ⟨s₁.nextId⟩ (scriptNode source line s₃.current.line s₃.scope) statements
  have hplaced : Tree.placed .script 0 statements = statements.map (Spot.mk .part) :=
    Tree.placed_uniform (fun _ _ => rfl) statements
  rw [← hplaced] at h₃
  have hroot : root.ListsNames := by
    obtain ⟨hvars, hsorted, hmem⟩ := Names.listed root.inside
    rw [← h₃.inside (t := root)] at hvars hsorted hmem
    exact ⟨congrArg (some ∘ PropertyValue.texts) hvars, ⟨s₃.scope.uses, rfl, hsorted, hmem⟩,
      fun htag => nomatch htag⟩
  have hsettled : (Spot.mk .part root).Settled :=
    .node (fun _ => hroot) (fun _ htag => nomatch htag) (Noted.settled_parts h₃.settled)
  have hcomments : (Spot.mk .part (withComments .trailingComments comments root)).Settled := by
    rw [withComments]
    split
    · exact hsettled
    · exact hsettled.put rfl
  exact hcomments.functions

end Grammar

namespace Script
variable {settings : ReadSettings} {text : String} {script : Script}

/-- Every node of a script that was read that opens a scope lists the names in it. -/
theorem scopes_listed (h : read settings text = .ok script) :
    ∀ f ∈ script.tree.preorder, f.tag.opensScope = true → f.ListsNames := by
  unfold read at h
  dsimp only at h
  split at h
  · cases h
  next root s hrun =>
  obtain rfl := Except.ok.inj h
  exact Grammar.ensures_ok (Grammar.script_lists (Grammar.notesNames_nested (text.length + 1))
    settings.source settings.startLine rfl) hrun

/-- The lists of names of a script that was read and of the functions in it are about the names
inside them: the variables without doubles in the order of their first declarations, the uses in
ascending order. -/
theorem read_lists (h : read settings text = .ok script) :
    ∀ f ∈ script.tree.preorder, f.tag = .script ∨ f.tag = .kwFunction → f.ListsNames := by
  intro f hf htag
  refine scopes_listed h f hf ?_
  rcases htag with htag | htag <;> rw [htag] <;> rfl

/-- The functions of a script, in the order of the text. -/
def functions (script : Script) : List Tree :=
  script.tree.preorder.filter (·.tag == .kwFunction)

theorem exists_function {α : Type} {view : Tree → α} {a : α} {rest : List α}
    (h : (functions script).map view = a :: rest) :
    ∃ f ∈ script.tree.preorder, f.tag = .kwFunction ∧ view f = a := by
  obtain ⟨f, others, hfunctions, hf, -⟩ := List.map_eq_cons_iff.mp h
  have hmem : f ∈ functions script := by simp [hfunctions]
  obtain ⟨hin, htag⟩ := List.mem_filter.mp hmem
  exact ⟨f, hin, beq_iff_eq.mp htag, hf⟩

/-- A function with a parameter, a name that is used and a label, and a label that is a variable. -/
theorem read_lists_label : ∃ script f,
    read {} "function f(x)\x7ba:a;var y=a.b,x;y:return\x7bc:x\x7d\x7d" = .ok script
      ∧ f ∈ script.tree.preorder ∧ f.tag = .kwFunction ∧ f.ListsNames
      ∧ f.declaredNames = ["y", "x"] ∧ f.usedNames = ["a", "a", "x"] := by
  have hread : ((read {} "function f(x)\x7ba:a;var y=a.b,x;y:return\x7bc:x\x7d\x7d").toOption.map
      fun script => (functions script).map fun f => (f.declaredNames, f.usedNames))
        = some [(["y", "x"], ["a", "a", "x"])] := by
    decide +kernel
  obtain ⟨script, hok, hnames⟩ := exists_read hread
  obtain ⟨f, hf, htag, hnames⟩ := exists_function hnames
  obtain ⟨hdeclared, hused⟩ := Prod.mk.inj hnames
  exact ⟨script, f, hok, hf, htag, read_lists hok f hf (Or.inr htag), hdeclared, hused⟩

end Script
end ScriptPress
