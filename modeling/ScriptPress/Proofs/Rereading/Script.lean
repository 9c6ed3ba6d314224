import ScriptPress.Proofs.Rereading.Ending

/-! # Reading scripts again

What is written of a script is read again to the same tree, whatever the layout. Compact output is
read to the tree without its comments and with the lines of its strings joined.
-/
namespace ScriptPress.Grammar
open Lexer Render

/-- How a script is written, and read again with settings. -/
def tapeOf (o : RenderOptions) (settings : ReadSettings) (t : Tree) : Tape where
  o := o
  dialect := settings.dialect
  keep := settings.keepComments
  tail := behind o.compact false (scriptSteps o t)

/-- A script that was read again. -/
structure Tape.Rereads (x : Tape) (t t' : Tree) : Prop extends x.Regains t t' where
  drawn : ∀ o, x.Suffices o → SameRun (scriptSteps o t') (scriptSteps o t)

section
variable {x : Tape} {o : RenderOptions} {settings : ReadSettings} {t : Tree} {ts ts' : List Tree}
  {id id' : NodeId} {data data' : Node}

theorem scriptSteps_eq : scriptSteps o (.node id data ts) = listedAt o ts ++ notes o data.trailing := by
  rw [scriptSteps, partsOf_eq]
  exact congrArg (· ++ _) (listed_eq ts)

theorem endsAt_input : EndsAt (fun t => t.tag == .endOfInput) (· == .endOfInput) :=
  ⟨fun _ => rfl, by decide, rfl⟩

theorem rereads_node (h : data.Closed { tag := .script }) (hleading : data.leading = [])
    (hcore : data'.core = { tag := .script }) (hleading' : data'.leading = [])
    (htrailing : data'.trailing = x.recalled data.trailing) (hts : x.Relists [] ts ts' []) :
    x.Rereads (.node id data ts) (.node id' data' ts') := by
  refine ⟨⟨echoes_node h.core hcore (by simp) hts.echo, ?_⟩, fun o ho => ?_⟩
  · have hremarks : Tree.remarksAll ts' = x.recalled (Tree.remarksAll ts) := by
      simpa using hts.remarks
    rw [Tree.remarks, Tree.remarks, hleading, hleading', htrailing, hremarks]
    simp
  · have hlisted : SameRun (listedAt o ts') (listedAt o ts) := by simpa using hts.drawn o ho
    rw [scriptSteps_eq, scriptSteps_eq, htrailing, ho.notes]
    exact hlisted.behind _

/-- The first token of what is written of a script leads to its words. -/
theorem advance_opening (h : IsScript settings.dialect t) (o : RenderOptions) {x : Tape}
    (hx : x = tapeOf o settings t) :
    (x.words false false (scriptSteps o t)).length ≤ (Render.script o t).length
      ∧ ∃ first s, advance (Script.opening settings (Render.script o t)) = .ok (first, s)
        ∧ Fed x (Script.opening settings (Render.script o t))
          (x.words false false (scriptSteps o t)) s := by
  subst hx
  have hfeeds : Feeds settings.dialect true (Render.script o t).toList
      ((tapeOf o settings t).words false false (scriptSteps o t)) (tapeOf o settings t).tail :=
    Writer.write_feeds o false (h.flows o)
  have hlength := hfeeds.length_le
  rw [String.length_toList] at hlength
  exact ⟨hlength, _, advance_feeds (.refl _) rfl rfl rfl (by simp [Script.opening]) rfl hfeeds⟩

/-- The statements of a script, up to the end of the text. -/
theorem scriptStatements_read (hformed : ∀ t ∈ ts, Formed x.dialect (.statement {} true) t)
    {s₀ s : State} (hctx : s₀.ctx = {}) (hpending : s₀.pendingLabels = [])
    (htail : x.tail = x.noted data.trailing) {n : Nat}
    (hn : (x.words false false (listedAt x.o ts ++ notes x.o data.trailing)).length < n)
    (hs : Fed x s₀ (x.words false false (listedAt x.o ts ++ notes x.o data.trailing)) s) :
    Ensures True ((nested n).itemsUntil (·.tag == .endOfInput) ((nested n).statement true) []) s
      fun ts' s' => x.Relists [] ts ts' [] ∧ s'.comments = x.recalled data.trailing := by
  have hmute := (Tape.Holds.notes x data.trailing).mute
  have hmore : Resumes x.dialect (fun s => (s.tag == .endOfInput) = true ∧ Trails true s)
      (notes x.o data.trailing) := by
    rw [← List.append_nil (notes x.o data.trailing)]
    exact .behind hmute .finish
  have hnone : ∀ lead, x.words lead false (notes x.o data.trailing) = [] := by
    intro lead
    have hwords : x.words lead false (notes x.o data.trailing ++ []) = _ := words_mute hmute
    rw [List.append_nil] at hwords
    exact hwords
  rw [← x.lead_nil false] at hn hs
  refine (statements_read endsAt_input hformed (fun t ht => formed_yields (hformed t ht)) hctx
    hpending hmore hn hs []).mono fun ts' s' hread => ?_
  obtain ⟨ts', left, rfl, hlists, hs'⟩ := hread
  obtain rfl : left = [] := hlists.none rfl
  rw [hnone] at hs'
  refine ⟨hlists, ?_⟩
  rw [hs'.comments, Tape.remarks, htail, x.hears_noted]

theorem ensures_taken {α : Type} {f : List String → Reading α} {s : State} {Q : α → State → Prop}
    (h : Ensures True (f s.comments) { s with comments := [] } Q) :
    Ensures True (takeComments >>= f) s Q := h

/-- The grammar reads what is written of a script. -/
theorem script_rereads (h : IsScript settings.dialect t) (o : RenderOptions) (source : String)
    (line : Nat) : Ensures True ((nested ((Render.script o t).length + 1)).script source line)
      (Script.opening settings (Render.script o t))
      fun t' _ => (tapeOf o settings t).Rereads t t' := by
  generalize hx : tapeOf o settings t = x
  obtain ⟨hlength, first, s, hadvance, hs⟩ := advance_opening h o hx.symm
  cases h with
  | @mk id data ts hdata hleading hall =>
    obtain rfl : x.o = o := by rw [← hx]; rfl
    have hdialect : x.dialect = settings.dialect := by rw [← hx]; rfl
    rw [← hdialect] at hall
    have hsteps : scriptSteps x.o (.node id data ts)
        = listedAt x.o ts ++ notes x.o data.trailing := scriptSteps_eq
    have htail : x.tail = x.noted data.trailing := by
      rw [← behind_listed fun t ht => formed_clears (hall t ht), ← hsteps, ← hx]
      rfl
    rw [hsteps] at hlength hs
    refine Ensures.bind (P := fun _ s' => Fed x _ _ s') (ensures_of_ok hadvance hs)
      fun _ s₁ hs₁ => ?_
    refine hs₁.freshId fun id' s₂ _ _ _ hs₂ => ?_
    refine (scriptStatements_read hall rfl rfl htail (Nat.lt_succ_of_le hlength) hs₂).bind
      fun ts' s₃ hread => ?_
    obtain ⟨hlists, hcomments⟩ := hread
    have hplain := Node.plain_scriptNode source line s₃.current.line s₃.scope
    obtain ⟨data', hnode, hcore, hleading', htrailing⟩ := withComments_trailing s₃.comments id'
      (scriptNode source line s₃.current.line s₃.scope) ts' hplain.trailing
    refine ensures_taken (ensures_get (ensures_pure ?_))
    rw [hnode]
    refine (rereads_node hdata hleading (hcore.trans hplain.core)
      (hleading'.trans hplain.leading) ?_ hlists)
    rw [htrailing, hcomments]

end
end ScriptPress.Grammar
