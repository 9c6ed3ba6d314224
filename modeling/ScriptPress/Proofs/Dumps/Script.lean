import ScriptPress.Proofs.Dumps.Lines
import ScriptPress.Proofs.Rereading.Roundtrip

/-! # Dumps of scripts

A dump gives away the tree it was made of, but for the side of its operand a step stands on: the
columns of the lines tell where the children of a node end.
-/
namespace ScriptPress
namespace Tree

/-- A step behind its operand. -/
def isPostfix (t : Tree) : Bool := t.data.properties.flag .postfixForm

/-! ## Where children end -/

/-- No line of a depth, or of a greater one, begins here. -/
def EndsAt (depth : Nat) (rest : List Char) : Prop := ¬ List.replicate (2 * depth) ' ' <+: rest

variable {d : Dialect} {depth : Nat} {rest rest' : List Char}

theorem EndsAt.deeper (h : EndsAt depth rest) : EndsAt (depth + 1) rest := by
  intro hdeeper
  apply h
  rw [Nat.mul_succ, List.replicate_add] at hdeeper
  exact (List.prefix_append _ _).trans hdeeper

theorem endsAt_dump (t : Tree) : EndsAt (depth + 1) (dumpAt depth t ++ rest) := by
  obtain ⟨id, data, children⟩ := t
  obtain ⟨hne, hword⟩ := data.tag.dumpName_word
  intro h
  rw [dumpAt, Node.dump_eq, Nat.mul_succ, List.replicate_add, List.append_assoc, List.append_assoc,
    List.append_assoc, List.prefix_append_right_inj] at h
  cases hname : data.tag.dumpName.toList with
  | nil => exact hne hname
  | cons c more =>
    rw [hname] at h
    obtain ⟨rfl, -⟩ := List.cons_prefix_cons.mp h
    have hblank := hword ' ' (by simp [hname])
    cases hblank

theorem endsAt_dumpAll (ts : List Tree) (h : EndsAt depth rest) :
    EndsAt (depth + 1) (dumpAllAt depth ts ++ rest) := by
  cases ts with
  | nil => exact h.deeper
  | cons t ts =>
    rw [dumpAllAt, List.append_assoc]
    exact endsAt_dump t

theorem not_endsAt_dumpAll (t : Tree) (ts : List Tree) :
    ¬ EndsAt depth (dumpAllAt depth (t :: ts) ++ rest) := by
  obtain ⟨id, data, children⟩ := t
  intro h
  apply h
  rw [dumpAllAt, dumpAt, List.append_assoc, List.append_assoc, List.append_assoc]
  exact List.prefix_append _ _

/-! ## Reading a dump -/

mutual

/-- A dump and the sides of the steps give a tree away. -/
theorem Legible.unique {t t' : Tree} {depth : Nat} {rest rest' : List Char}
    {marks marks' : List Bool} (h : t.Legible d) (h' : t'.Legible d)
    (hr : EndsAt (depth + 1) rest) (hr' : EndsAt (depth + 1) rest')
    (hdump : dumpAt depth t ++ rest = dumpAt depth t' ++ rest')
    (hmarks : t.preorder.map isPostfix ++ marks = t'.preorder.map isPostfix ++ marks') :
    t.plain = t'.plain ∧ rest = rest' ∧ marks = marks' := by
  cases t with
  | node id data children =>
    cases t' with
    | node id' data' children' =>
      obtain ⟨hdata, hall⟩ := h
      obtain ⟨hdata', hall'⟩ := h'
      simp only [dumpAt, Node.dump_eq, List.append_assoc, List.append_cancel_left_eq,
        List.cons_append] at hdump
      rw [← List.append_assoc, ← List.append_assoc] at hdump
      obtain ⟨htag, hdatum, hpayload, hlines⟩ := hdata.unique hdata' hdump
      rw [preorder, preorder, List.map_cons, List.map_cons, List.cons_append, List.cons_append,
        List.cons.injEq] at hmarks
      obtain ⟨hmark, hmarks⟩ := hmarks
      obtain ⟨hchildren, hends⟩ := legible_uniqueAll hall hall' hr hr' hlines hmarks
      have hnode : data.plain = data'.plain := Node.plain_congr htag hdatum hpayload hmark
      rw [plain_node, plain_node, hnode, hchildren]
      exact ⟨rfl, hends⟩

theorem legible_uniqueAll {ts ts' : List Tree} {depth : Nat} {rest rest' : List Char}
    {marks marks' : List Bool} (h : ∀ t ∈ ts, t.Legible d) (h' : ∀ t ∈ ts', t.Legible d) (hr : EndsAt depth rest) (hr' : EndsAt depth rest')
    (hdump : dumpAllAt depth ts ++ rest = dumpAllAt depth ts' ++ rest')
    (hmarks : (preorderAll ts).map isPostfix ++ marks
      = (preorderAll ts').map isPostfix ++ marks') :
    ts.map plain = ts'.map plain ∧ rest = rest' ∧ marks = marks' := by
  cases ts with
  | nil =>
    cases ts' with
    | nil => exact ⟨rfl, hdump, hmarks⟩
    | cons t' more' =>
      have hline : EndsAt depth (dumpAllAt depth (t' :: more') ++ rest') := by
        rw [← hdump]
        exact hr
      exact absurd hline (not_endsAt_dumpAll t' more')
  | cons t more =>
    cases ts' with
    | nil =>
      have hline : EndsAt depth (dumpAllAt depth (t :: more) ++ rest) := by
        rw [hdump]
        exact hr'
      exact absurd hline (not_endsAt_dumpAll t more)
    | cons t' more' =>
      obtain ⟨ht, hmore⟩ := List.forall_mem_cons.mp h
      obtain ⟨ht', hmore'⟩ := List.forall_mem_cons.mp h'
      rw [dumpAllAt, dumpAllAt, List.append_assoc, List.append_assoc] at hdump
      rw [preorderAll, preorderAll, List.map_append, List.map_append, List.append_assoc,
        List.append_assoc] at hmarks
      obtain ⟨hfirst, hlines, hmarks⟩ := ht.unique ht' (endsAt_dumpAll more hr)
        (endsAt_dumpAll more' hr') hdump hmarks
      obtain ⟨hothers, hends⟩ := legible_uniqueAll hmore hmore' hr hr' hlines hmarks
      rw [List.map_cons, List.map_cons, hfirst, hothers]
      exact ⟨rfl, hends⟩

end

/-- Legible trees with one dump and the same sides of steps are alike. -/
theorem Legible.plain_eq {t t' : Tree} (h : t.Legible d) (h' : t'.Legible d)
    (hdump : t.dump = t'.dump) (hmarks : t.preorder.map isPostfix = t'.preorder.map isPostfix) :
    t.plain = t'.plain := by
  have hend : EndsAt 1 [] := by
    intro hprefix
    cases List.prefix_nil.mp hprefix
  have hlines : dumpAt 0 t ++ [] = dumpAt 0 t' ++ [] := by
    rw [List.append_nil, List.append_nil]
    exact String.ofList_injective hdump
  have hmarks' : t.preorder.map isPostfix ++ [] = t'.preorder.map isPostfix ++ [] := by rw [hmarks]
  exact (h.unique h' hend hend hlines hmarks').1

/-! ## The sides of steps -/

theorem joined_postfixForm (c : Core) : c.joined.postfixForm = c.postfixForm :=
  (@Grammar.core_echo_same true c).2

mutual

theorem marks_of_outline {t t' : Tree}
    (h : t.outline.map Core.joined = t'.outline.map Core.joined) :
    t.preorder.map isPostfix = t'.preorder.map isPostfix := by
  cases t with
  | node id data children =>
    cases t' with
    | node id' data' children' =>
      rw [outline_node, outline_node, Outline.map_node, Outline.map_node,
        Outline.node.injEq] at h
      obtain ⟨hcore, hparts⟩ := h
      have hform := congrArg Core.postfixForm hcore
      rw [joined_postfixForm, joined_postfixForm] at hform
      have hmark : isPostfix (.node id data children) = isPostfix (.node id' data' children') :=
        hform
      rw [preorder, preorder, List.map_cons, List.map_cons, hmark, marks_of_outlines hparts]

theorem marks_of_outlines {ts ts' : List Tree}
    (h : (ts.map outline).map (Outline.map Core.joined)
      = (ts'.map outline).map (Outline.map Core.joined)) :
    (preorderAll ts).map isPostfix = (preorderAll ts').map isPostfix := by
  cases ts with
  | nil =>
    cases ts' with
    | nil => rfl
    | cons t' more' => cases h
  | cons t more =>
    cases ts' with
    | nil => cases h
    | cons t' more' =>
      simp only [List.map_cons, List.cons.injEq] at h
      rw [preorderAll, preorderAll, List.map_append, List.map_append, marks_of_outline h.1,
        marks_of_outlines h.2]

end

end Tree

namespace Script
variable {settings again : ReadSettings} {text text' : String} {script other : Script}

/-- Two scripts of one dialect with one dump have one compact form if their steps stand on the same
sides of their operands, and only then. -/
theorem same_compact_iff (h : read settings text = .ok script)
    (h' : read again text' = .ok other) (hdialect : again.dialect = settings.dialect)
    (hdump : other.tree.dump = script.tree.dump) :
    other.render .compactForm = script.render .compactForm
      ↔ other.tree.preorder.map Tree.isPostfix = script.tree.preorder.map Tree.isPostfix := by
  constructor
  · intro hcompact
    have hsame : again.dialect = again.dialect := rfl
    obtain ⟨reread, hread, -, -, houtline, -⟩ := read_compact h hdialect
    obtain ⟨reread', hread', -, -, houtline', -⟩ := read_compact h' hsame
    rw [hcompact, hread, Except.ok.injEq] at hread'
    rw [← hread', houtline] at houtline'
    exact Tree.marks_of_outline houtline'.symm
  · intro hmarks
    obtain ⟨hscript, -⟩ := Grammar.read_sound h
    obtain ⟨hother, -⟩ := Grammar.read_sound h'
    rw [hdialect] at hother
    have hplain := hother.legible.plain_eq hscript.legible hdump hmarks
    rw [render, render, ← Render.script_plain rfl other.tree, hplain,
      Render.script_plain rfl script.tree]

/-- A step behind its operand is marked, in the order of the lines of the dump. -/
example : ((read {} "-a++").toOption.map fun script =>
    (script.tree.dump, script.tree.preorder.map Tree.isPostfix))
      = some ("SCRIPT\n  EXPR_STATEMENT\n    UNARYOP NEG\n      INC\n        NAME a\n",
        [false, false, false, true, false]) := by
  decide +kernel

/-- A step with and without parentheses and a semicolon. -/
theorem same_compact_step : ∃ script other,
    read {} "i=n++" = .ok script ∧ read {} "i = (n)++;" = .ok other
      ∧ other.tree.dump = script.tree.dump
      ∧ other.render .compactForm = script.render .compactForm := by
  have hsample : ((read {} "i=n++").toOption.map
      fun s => (s.tree.dump, s.tree.preorder.map Tree.isPostfix))
        = some ("SCRIPT\n  EXPR_STATEMENT\n    ASSIGN\n      NAME i\n      INC\n        NAME n\n",
            [false, false, false, false, true, false]) := by
    decide +kernel
  have hsample' : ((read {} "i = (n)++;").toOption.map
      fun s => (s.tree.dump, s.tree.preorder.map Tree.isPostfix))
        = some ("SCRIPT\n  EXPR_STATEMENT\n    ASSIGN\n      NAME i\n      INC\n        NAME n\n",
            [false, false, false, false, true, false]) := by
    decide +kernel
  obtain ⟨script, hread, hs⟩ := exists_read hsample
  obtain ⟨other, hread', hs'⟩ := exists_read hsample'
  obtain ⟨hdump, hmarks⟩ := Prod.mk.inj (hs'.trans hs.symm)
  have hcompact := (same_compact_iff hread hread' rfl hdump).mpr hmarks
  exact ⟨script, other, hread, hread', hdump, hcompact⟩

/-- A dump does not tell on which side of its operand a step stands. -/
theorem dump_forgets_sides : ∃ before behind,
    read {} "++a" = .ok before ∧ read {} "a++" = .ok behind
      ∧ before.tree.dump = behind.tree.dump
      ∧ before.render .compactForm ≠ behind.render .compactForm := by
  have hbefore : ((read {} "++a").toOption.map
      fun s => (s.tree.dump, s.render .compactForm))
        = some ("SCRIPT\n  EXPR_STATEMENT\n    INC\n      NAME a\n", "++a") := by
    decide +kernel
  have hbehind : ((read {} "a++").toOption.map
      fun s => (s.tree.dump, s.render .compactForm))
        = some ("SCRIPT\n  EXPR_STATEMENT\n    INC\n      NAME a\n", "a++") := by
    decide +kernel
  obtain ⟨before, hread, hb⟩ := exists_read hbefore
  obtain ⟨behind, hread', hb'⟩ := exists_read hbehind
  rw [Prod.mk.injEq] at hb hb'
  refine ⟨before, behind, hread, hread', hb.1.trans hb'.1.symm, ?_⟩
  rw [hb.2, hb'.2]
  decide

end Script
end ScriptPress
