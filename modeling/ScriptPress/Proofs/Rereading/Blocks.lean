import ScriptPress.Proofs.Rereading.Roles

/-! # Reading blocks again

The statements of a list are read again one by one. Comments in front of the list go to its first
statement; where there is none, they are left to whatever is around the list.
-/
namespace ScriptPress.Grammar
open Lexer Render

/-! ## Statements in lists -/

/-- A list of statements that was read again. The comments in front of it went to the first one, or
are left. -/
structure Tape.Relists (x : Tape) (cs : List String) (ts ts' : List Tree) (left : List String) :
    Prop where
  echo : List.Forall₂ x.Echoes ts ts'
  remarks : Tree.remarksAll ts' ++ x.recalled left = x.recalled (cs ++ Tree.remarksAll ts)
  drawn : ∀ o, x.Suffices o →
    SameRun (listedAt o ts' ++ notes o left) (notes o cs ++ listedAt o ts)
  none : cs = [] → left = []

section
variable {x : Tape} {cs : List String} {t t' : Tree} {ts ts' : List Tree}

theorem relists_nil (x : Tape) (cs : List String) : x.Relists cs [] [] cs := by
  refine ⟨.nil, by simp [Tree.remarksAll], fun o _ => ?_, fun h => h⟩
  simpa [listedAt] using SameRun.refl (notes o cs)

theorem regains_replays {role : Role} (h : List.Forall₂ (x.Replays role) ts ts') :
    List.Forall₂ x.Regains ts ts' := h.imp fun _ _ h => h.toRegains

theorem relists_cons (h : x.Restates (x.recalled (cs ++ t.data.leading)) t t')
    (hall : List.Forall₂ (x.Replays (.listed false)) ts ts') :
    x.Relists cs (t :: ts) (t' :: ts') [] := by
  have hregains := regains_replays hall
  refine ⟨.cons h.echo (echoes_all hregains), ?_, fun o ho => ?_, fun _ => rfl⟩
  · rw [Tree.remarksAll, Tree.remarksAll, h.remarks, remarksAll_regains hregains, x.recalled_nil,
      List.append_nil, ← Tape.recalled_append, List.append_assoc]
  · have hrest : SameRun (ts'.flatMap fun t => statementAt o t (.listed false))
        (ts.flatMap fun t => statementAt o t (.listed false)) := by
      have hsame : SameRun (inOrder (fun _ t => statementAt o t (.listed false)) false ts')
          (inOrder (fun _ t => statementAt o t (.listed false)) false ts) :=
        inOrder_same hall.flip fun _ _ ht _ => ht.drawn o ho
      rwa [inOrder_false, inOrder_false] at hsame
    rw [listedAt, listedAt, notes_nil, List.append_nil, ← List.append_assoc]
    exact (h.listed (.inl rfl) ho).append hrest

end

/-- What ends a list of statements: tags that none begins with, and the end of the text. -/
structure EndsAt (ends : Token → Bool) (closes : Tag → Bool) : Prop where
  tag : ∀ t, ends t = closes t.tag
  goes : ∀ tag ∈ Tag.div :: Tag.assign :: statementTags, closes tag = false
  stops : closes .endOfInput = true

section
variable {x : Tape} {s₀ s : State} {ctx : Ctx} {top b : Bool} {t : Tree} {ts : List Tree}
  {cs : List String} {more : List WriterStep} {ends : Token → Bool} {closes : Tag → Bool} {n : Nat}

theorem apart_statement {s : Sym} (h : s.tag ∈ statementTags) : Trails true s := by
  have hall : ∀ tag ∈ statementTags, tag ≠ .kwCatch ∧ tag ≠ .kwFinally ∧ tag ≠ .kwElse := by decide
  obtain ⟨hcatch, hfinally, helse⟩ := hall s.tag h
  exact ⟨⟨hcatch, hfinally⟩, fun _ => helse⟩

theorem Trails.mono {s : Sym} (h : Trails true s) (open? : Bool) : Trails open? s :=
  ⟨h.handler, fun _ => h.closed rfl⟩

theorem EndsAt.slash (h : EndsAt ends closes) : closes .div = false ∧ closes .assign = false :=
  ⟨h.goes .div (by simp), h.goes .assign (by simp)⟩

/-- Behind the list stands what ends it. -/
theorem EndsAt.stopped (h : EndsAt ends closes)
    (hmore : Resumes x.dialect (fun s => closes s.tag = true ∧ Trails true s) more) {lead : Lead}
    (hs : Fed x s₀ (x.words lead false more) s) : closes s.current.tag = true := by
  have hhead : ∀ w ∈ (x.words lead false more).head?, _ := hmore.head
  cases hwords : x.words lead false more with
  | nil =>
    rw [hwords] at hs
    rw [hs.tag_nil, h.stops]
  | cons w ws =>
    rw [hwords] at hs hhead
    have hw := (hhead w rfl).1
    have hr : w.sym.tag ≠ .regExp := by
      intro hr
      rw [hr, h.goes .regExp (by decide)] at hw
      cases hw
    rw [hs.tag_eq hr, hw]

/-- The first turn, which takes the comments in front of the list. -/
theorem first_turn (hends : EndsAt ends closes) (ht : Formed x.dialect (.statement ctx top) t)
    {rest : List Word} (hread : Takes x s₀ n ((nested n).statement top)
      (x.words (x.lead b cs) false (statementAt x.o t (.listed true) ++ more))
      (x.Restates (x.recalled (cs ++ t.data.leading)) t) rest)
    (hn : (x.words (x.lead b cs) false (statementAt x.o t (.listed true) ++ more)).length < n)
    (hs : Fed x s₀ (x.words (x.lead b cs) false (statementAt x.o t (.listed true) ++ more)) s)
    (items : List Tree) : Ensures True (untilTurn ends ((nested n).statement top) items) s
      fun turn s' => ∃ t', turn = .again (items ++ [t'])
        ∧ x.Restates (x.recalled (cs ++ t.data.leading)) t t' ∧ Fed x s₀ rest s' := by
  refine ensures_get ?_
  have hopens : Opens x.dialect (·.tag ∈ statementTags) (statementAt x.o t (.listed true)) :=
    ht.opens_at rfl
  obtain ⟨w, lead, ws, hwords, hstarts, -⟩ := hopens.words_head x.o.compact (x.lead b cs) more
  have hfaces := hs
  rw [Tape.words, hwords] at hfaces
  have hgoes : closes w.tag = false := hends.goes w.tag (by simp [hstarts])
  rw [if_neg (by rw [hends.tag, hfaces.tag_of_head hgoes fun _ => hends.slash]; simp)]
  exact hread.bind hn hs fun t' s' ht' hs' => ensures_pure ⟨t', rfl, ht', hs'⟩

/-- Items behind the first statement of a list, which took the comments in front of it. -/
def Goes (x : Tape) (cs : List String) (first : List Tree) (t : Tree) (done items : List Tree) :
    Prop :=
  ∃ t' ts', items = first ++ t' :: ts' ∧ x.Restates (x.recalled (cs ++ t.data.leading)) t t'
    ∧ List.Forall₂ (x.Replays (.listed false)) done ts'

theorem Goes.snoc {first done items : List Tree} {u u' : Tree} (h : Goes x cs first t done items)
    (hu : x.Replays (.listed false) u u') : Goes x cs first t (done ++ [u]) (items ++ [u']) := by
  obtain ⟨t', ts', rfl, ht', hts'⟩ := h
  exact ⟨t', ts' ++ [u'], by simp, ht', forall₂_snoc hts' hu⟩

/-- The statements of a list, behind items that were read before. -/
theorem statements_read (hends : EndsAt ends closes)
    (hformed : ∀ t ∈ ts, Formed x.dialect (.statement ctx top) t)
    (hall : ∀ t ∈ ts, StatementYields x ctx top t) (hctx : s₀.ctx = ctx)
    (hpending : s₀.pendingLabels = [])
    (hmore : Resumes x.dialect (fun s => closes s.tag = true ∧ Trails true s) more)
    (hn : (x.words (x.lead b cs) false (listedAt x.o ts ++ more)).length < n)
    (hs : Fed x s₀ (x.words (x.lead b cs) false (listedAt x.o ts ++ more)) s) (first : List Tree) :
    Ensures True ((nested n).itemsUntil ends ((nested n).statement top) first) s fun items s' =>
      ∃ ts' left, items = first ++ ts' ∧ x.Relists cs ts ts' left
        ∧ Fed x s₀ (x.words (x.lead true left) false more) s' := by
  have hstop : ∀ (lead : Lead) s, Fed x s₀ (x.words lead false more) s →
      closes s.current.tag = true := fun lead s hs => hends.stopped hmore hs
  cases ts with
  | nil =>
    have hnone : Collects x s₀ n (untilTurn ends ((nested n).statement top))
        (x.words (x.lead b cs) false more) (· = first) (· = first)
        (x.words (x.lead b cs) false more) := by
      refine .finish fun s items _ hitems hs => ensures_get ?_
      rw [if_pos (by rw [hends.tag, hstop _ s hs])]
      exact ensures_pure ⟨items, rfl, hitems, hs⟩
    refine (hnone.repeatTurns hn rfl hs).mono fun items s' hread => ?_
    obtain ⟨rfl, hs'⟩ := hread
    exact ⟨[], cs, by simp, relists_nil x cs, hs'.loosen (x.loosens_breaks _ false more)⟩
  | cons t ts =>
    have hopens : ∀ u ∈ ts, Opens x.dialect (fun s => Trails true s ∧ closes s.tag = false)
        (statementAt x.o u (.listed false)) := fun u hu =>
      ((hformed u (by simp [hu])).opens_at rfl).mono fun s hs =>
        ⟨apart_statement hs, hends.goes s.tag (by simp [hs])⟩
    have hbehind : Resumes x.dialect (Trails true) more := hmore.mono fun _ h => h.2
    -- behind the first statement each one keeps its comments
    have hrest : Collects x s₀ n (untilTurn ends ((nested n).statement top))
        (x.words true false (ts.flatMap (fun u => statementAt x.o u (.listed false)) ++ more))
        (Goes x cs first t []) (Goes x cs first t ([] ++ ts)) (x.words true false more) := by
      refine collects_until _ (R := x.Replays (.listed false)) (fun h hu => h.snoc hu) ?_ hopens
        hbehind hends.tag (fun _ => hends.slash) (hstop _)
      intro u hu zs hzs
      have hyields := (hall u (by simp [hu])).replays (hformed u (by simp [hu])) hctx hpending
        (hzs.mono fun _ h => h.mono _) false true
      exact hyields.inner (nests_statement top) n
    have hfollows : Resumes x.dialect (Trails true)
        (ts.flatMap (fun u => statementAt x.o u (.listed false)) ++ more) := by
      cases ts with
      | nil => exact hbehind
      | cons u us =>
        rw [List.flatMap_cons, List.append_assoc]
        exact .of_opens ((hopens u (by simp)).mono fun _ h => h.1) _
    have hfirst : Takes x s₀ n ((nested n).statement top) _ _ _ :=
      ((hall t (by simp)).listed (hformed t (by simp)) hctx hpending
        (hfollows.mono fun _ h => h.mono _) true b cs).inner (nests_statement top) n
    have hsteps : listedAt x.o (t :: ts) ++ more = statementAt x.o t (.listed true)
        ++ (ts.flatMap (fun u => statementAt x.o u (.listed false)) ++ more) := by
      rw [listedAt, List.append_assoc]
    rw [hsteps] at hn hs
    have hitems : Collects x s₀ n (untilTurn ends ((nested n).statement top))
        (x.words (x.lead b cs) false (statementAt x.o t (.listed true)
          ++ (ts.flatMap (fun u => statementAt x.o u (.listed false)) ++ more))) (· = first)
        (Goes x cs first t ([] ++ ts)) (x.words true false more) := by
      refine hrest.turn hfirst.shorter fun s items hn hitems hs => ?_
      refine (first_turn hends (hformed t (by simp)) hfirst hn hs items).mono fun turn s' hturn => ?_
      obtain ⟨t', rfl, ht', hs'⟩ := hturn
      exact ⟨_, rfl, ⟨t', [], by rw [hitems], ht', .nil⟩, hs'⟩
    refine (hitems.repeatTurns hn rfl hs).mono fun items s' hread => ?_
    obtain ⟨⟨t', ts', rfl, ht', hts'⟩, hs'⟩ := hread
    refine ⟨t' :: ts', [], rfl, relists_cons ht' hts', ?_⟩
    rwa [x.lead_nil]

end

/-! ## Blocks -/

/-- What is written of a block behind its brace, with comments that go inside. -/
def blockAt (o : RenderOptions) (cs : List String) (data : Node) (ts : List Tree) :
    List WriterStep :=
  notes o cs ++ (listedAt o ts
    ++ (trailingComments o data ++ [.outdent, .newline, .token "\x7d"]))

/-- A block that was read again, with comments that were written behind its brace. -/
structure Tape.Reblocks (x : Tape) (cs : List String) (data : Node) (ts : List Tree) (t' : Tree) :
    Prop where
  core : t'.data.core = { tag := .block }
  leading : t'.data.leading = []
  echo : List.Forall₂ x.Echoes ts t'.children
  inner : t'.innerRemarks = x.recalled (cs ++ (Tree.remarksAll ts ++ data.trailing))
  drawn : ∀ o, x.Suffices o →
    SameRun (blockAt o [] t'.data t'.children) (blockAt o cs data ts)

section
variable {x : Tape} {o : RenderOptions} {s₀ s : State} {ctx : Ctx} {top : Bool} {id : NodeId}
  {data : Node} {t : Tree} {ts : List Tree} {cs : List String} {b : Bool} {more : List WriterStep}

theorem blockSteps_eq : blockSteps o data (ts.map (part o))
    = .token "\x7b" :: .indent :: blockAt o [] data ts := by
  simp [blockSteps, blockRest, blockAt, listed_eq]

theorem bodySteps_eq : bodySteps o data (ts.map (part o))
    = .token "\x7b" :: .indent :: blockAt o data.leading data ts := by
  have hleading : leadingComments o data = notes o data.leading := rfl
  simp [bodySteps, blockRest, blockAt, listed_eq, hleading]

theorem endsAt_brace : EndsAt (fun t => t.tag == .rightBrace || t.tag == .endOfInput)
    (fun tag => tag == .rightBrace || tag == .endOfInput) :=
  ⟨fun _ => rfl, by decide, rfl⟩

/-- A brace that closes a block ends every statement. -/
theorem resumes_brace (P : Sym → Prop) (hP : P ⟨.rightBrace, none, none⟩) :
    Resumes x.dialect P (.token "\x7d" :: more) :=
  .heads (.sign (isSign_everywhere (by decide : Tag.rightBrace ∈ everywhere)) hP)

/-- The comments behind the last statement of a block, up to its brace. -/
theorem holds_blockEnd (x : Tape) (data : Node) :
    x.Holds (data.trailing ++ []) (trailingComments x.o data ++ [.outdent, .newline]) :=
  (Tape.Holds.notes x data.trailing).append
    (.cons (.cons .nil rfl (by simp)) rfl (by simp))

theorem Tape.Relists.reblocks {ts' : List Tree} {left : List String}
    (h : x.Relists cs ts ts' left) (id' : NodeId) (line : Nat) :
    x.Reblocks cs data ts (withComments .trailingComments (x.recalled (left ++ data.trailing))
      (.node id' (.leaf .block line) ts')) := by
  have hplain := Node.plain_leaf .block line
  obtain ⟨data', hnode, hcore, hleading, htrailing⟩ :=
    withComments_trailing (x.recalled (left ++ data.trailing)) id' (.leaf .block line) ts'
      hplain.trailing
  rw [hnode]
  refine ⟨hcore.trans hplain.core, hleading.trans hplain.leading, h.echo, ?_, fun o ho => ?_⟩
  · change Tree.remarksAll ts' ++ data'.trailing = _
    rw [htrailing, Tape.recalled_append, ← List.append_assoc, h.remarks, ← Tape.recalled_append,
      List.append_assoc]
  · have hlast : trailingComments o data' = notes o left ++ trailingComments o data := by
      change notes o data'.trailing = notes o left ++ notes o data.trailing
      rw [htrailing, ho.notes, notes_append]
    change SameRun (blockAt o [] data' ts') _
    rw [blockAt, blockAt, hlast, notes_nil, List.nil_append]
    simpa using (h.drawn o ho).behind (trailingComments o data ++ [.outdent, .newline, .token "\x7d"])

section
variable (hformed : ∀ t ∈ ts, Formed x.dialect (.statement ctx top) t)
  (hall : ∀ t ∈ ts, StatementYields x ctx top t) (hctx : s₀.ctx = ctx)
  (hpending : s₀.pendingLabels = [])
include hformed hall hctx hpending

/-- The statements of a block with the comments behind its brace, up to the brace that closes it. -/
theorem blockAfterBrace_takes (b : Bool) (cs : List String) (data : Node)
    (more : List WriterStep) (line : Nat) (construct : String) (n : Nat) :
    Takes x s₀ n ((nested n).blockAfterBrace top line construct)
      (x.words b false (blockAt x.o cs data ts ++ more)) (x.Reblocks cs data ts)
      (x.words false false more) := by
  have hsteps : blockAt x.o cs data ts ++ more = notes x.o cs ++ (listedAt x.o ts
      ++ ((trailingComments x.o data ++ [.outdent, .newline]) ++ .token "\x7d" :: more)) := by
    simp [blockAt]
  have hclose : ∀ lead, x.words lead false (.token "\x7d" :: more)
      = ⟨⟨.rightBrace, none, none⟩, lead⟩ :: x.words false false more := fun lead =>
    x.words_text "\x7d" .rightBrace (by decide) rfl more
  have hmore : Resumes x.dialect (fun s => (s.tag == .rightBrace || s.tag == .endOfInput) = true
      ∧ Trails true s)
      ((trailingComments x.o data ++ [.outdent, .newline]) ++ .token "\x7d" :: more) :=
    .behind (holds_blockEnd x data).mute
      (resumes_brace _ ⟨rfl, ⟨by decide, by decide⟩, fun _ => by decide⟩)
  have hloose := (Tape.Holds.notes x cs).loosens b [] false (listedAt x.o ts
    ++ ((trailingComments x.o data ++ [.outdent, .newline]) ++ .token "\x7d" :: more))
  rw [x.lead_nil, List.nil_append] at hloose
  have hlength := hloose.length
  rw [hsteps]
  refine ⟨?_, fun s hn hs => ?_⟩
  · have hlt := x.length_words_behind (x.lead true cs) false (listedAt x.o ts
      ++ (trailingComments x.o data ++ [.outdent, .newline])) (.token "\x7d" :: more)
    rw [hclose, List.append_assoc] at hlt
    rw [hlength]
    exact hlt
  rw [hlength] at hn
  refine (hs.loosen hloose).freshId fun id' s₁ _ _ _ hs₁ => ?_
  have hread : Ensures True ((nested n).statementsToBrace top) s₁ _ :=
    statements_read endsAt_brace hformed hall hctx hpending hmore hn hs₁ []
  refine hread.bind fun items s₂ hread => ?_
  obtain ⟨ts', left, rfl, hlists, hs₂⟩ := hread
  have hend := hs₂.loosen ((holds_blockEnd x data).loosens true left false (.token "\x7d" :: more))
  rw [hclose, List.append_nil] at hend
  refine hend.takeComments fun s₃ hs₃ => hs₃.expect rfl (by decide) fun s₄ hs₄ => ensures_pure ?_
  refine ⟨?_, hs₄⟩
  rw [Tape.lead, x.hears_noted]
  exact hlists.reblocks id' line

/-- A block from its brace. -/
theorem block_reads (b : Bool) (cs : List String) (data : Node) (more : List WriterStep)
    (construct : String) (htop : top = false) : Yields x s₀ (·.block construct)
    (x.words b false (.token "\x7b" :: .indent :: (blockAt x.o cs data ts ++ more)))
    (x.Reblocks cs data ts) (x.words false false more) := by
  subst htop
  have hopen : x.words b false (.token "\x7b" :: .indent :: (blockAt x.o cs data ts ++ more))
      = ⟨⟨.leftBrace, none, none⟩, b⟩ :: x.words false false (blockAt x.o cs data ts ++ more) :=
    x.words_text "\x7b" .leftBrace (by decide) rfl _
  have hread := blockAfterBrace_takes hformed hall hctx hpending false cs data more
  rw [hopen]
  refine ⟨Nat.lt_succ_of_lt (hread 0 "" 0).shorter, fun n s hn hs => ?_⟩
  exact hs.expect rfl (by decide) fun s₁ hs₁ => (hread _ construct n).ensures s₁ hn hs₁

end

/-! ### Blocks in their roles -/

theorem Tape.Reblocks.echoes {t' : Tree} (h : x.Reblocks cs data ts t')
    (hcore : data.core = { tag := .block }) : x.Echoes (.node id data ts) t' := by
  cases t' with
  | node id' data' ts' => exact echoes_node hcore h.core (by simp) h.echo

theorem statementAt_blockAt : statementAt o (.node id data ts) .block
    = .token "\x7b" :: .indent :: blockAt o [] data ts := by
  rw [statementAt_block, blockSteps_eq]

/-- A block of a function or of a try. -/
theorem Tape.Reblocks.replays {t' : Tree} (h : x.Reblocks [] data ts t')
    (hcore : data.core = { tag := .block }) (hleading : data.leading = []) :
    x.Replays .block (.node id data ts) t' := by
  refine ⟨⟨h.echoes hcore, ?_⟩, fun o ho => ?_⟩
  · rw [Tree.remarks_eq, h.leading, h.inner, Tree.remarks_eq]
    change _ = x.recalled (data.leading ++ (Tree.remarksAll ts ++ data.trailing))
    rw [hleading, List.nil_append, List.nil_append]
  · cases t' with
    | node id' data' ts' =>
      rw [statementAt_blockAt, statementAt_blockAt]
      exact .cons _ (.cons _ (h.drawn o ho))

/-- A block that is a statement. -/
theorem Tape.Reblocks.restates {t' : Tree} (h : x.Reblocks [] data ts t')
    (hcore : data.core = { tag := .block }) : x.Restates [] (.node id data ts) t' := by
  refine ⟨h.echoes hcore, h.leading, h.inner, fun o ho => ?_⟩
  cases t' with
  | node id' data' ts' =>
    have hcore' : data'.core = { tag := .block } := h.core
    rw [bareSteps_block hcore, bareSteps_block hcore', blockSteps_eq, blockSteps_eq]
    exact .cons _ (.cons _ ((h.drawn o ho).behind _))

/-- A block that is a body, with the comments before its brace inside. -/
theorem Tape.Reblocks.body {t' : Tree} (h : x.Reblocks data.leading data ts t') (id : NodeId)
    (hcore : data.core = { tag := .block }) : x.Replays .body (.node id data ts) t' := by
  refine ⟨⟨h.echoes hcore, ?_⟩, fun o ho => ?_⟩
  · rw [Tree.remarks_eq, h.leading, h.inner, Tree.remarks_eq, List.nil_append]
    rfl
  · cases t' with
    | node id' data' ts' =>
      have htag : (Tree.node id data ts).tag = .block := congrArg Core.tag hcore
      have htag' : (Tree.node id' data' ts').tag = .block := congrArg Core.tag h.core
      have hleading : data'.leading = [] := h.leading
      rw [statementAt_body, statementAt_body, if_pos (by rw [htag']; rfl),
        if_pos (by rw [htag]; rfl), Tree.children, Tree.children, Tree.data, Tree.data,
        bodySteps_eq, bodySteps_eq, hleading]
      exact .cons _ (.cons _ (.cons _ (h.drawn o ho)))

/-- A block is read again behind its brace. -/
def BlockYields (x : Tape) (ctx : Ctx) (top : Bool) (t : Tree) : Prop :=
  ∀ (b : Bool) more, ∃ ws,
    x.words b false (statementAt x.o t .block ++ more) = ⟨⟨.leftBrace, none, none⟩, b⟩ :: ws
      ∧ ∀ (s₀ : State) (n line : Nat) (construct : String), s₀.ctx = ctx → s₀.pendingLabels = [] →
        Takes x s₀ n ((nested n).blockAfterBrace top line construct) ws (x.Replays .block t)
          (x.words false false more)

theorem block_yields (hcore : data.core = { tag := .block }) (hleading : data.leading = [])
    (hformed : ∀ t ∈ ts, Formed x.dialect (.statement ctx top) t)
    (hall : ∀ t ∈ ts, StatementYields x ctx top t) : BlockYields x ctx top (.node id data ts) := by
  intro b more
  rw [statementAt_blockAt, List.cons_append, List.cons_append,
    x.words_text "\x7b" .leftBrace (by decide) rfl]
  refine ⟨_, rfl, fun s₀ n line construct hctx hpending => ?_⟩
  exact (blockAfterBrace_takes hformed hall hctx hpending false [] data more line construct n).mono fun t' ht' =>
    ht'.replays hcore hleading

/-- From its brace. -/
theorem BlockYields.block (h : BlockYields x ctx false t) (hctx : s₀.ctx = ctx)
    (hpending : s₀.pendingLabels = []) (construct : String) : Yields x s₀ (·.block construct)
      (x.words b false (statementAt x.o t .block ++ more)) (x.Replays .block t)
      (x.words false false more) := by
  obtain ⟨ws, hwords, hread⟩ := h b more
  rw [hwords]
  refine ⟨Nat.lt_succ_of_lt (hread s₀ 0 0 construct hctx hpending).shorter, fun n s hn hs => ?_⟩
  exact hs.expect rfl (by decide) fun s₁ hs₁ =>
    (hread s₀ n _ construct hctx hpending).ensures s₁ hn hs₁

/-! ### Blocks as statements -/

theorem blockStatement_eq (h : s.current.tag = .leftBrace) (g : Grammar) (top : Bool)
    (pending : List NodeId) : g.bareStatement top pending s = g.block "block" s := by
  rw [bareStatement, bind_ok (rfl : (get : Reading State) s = .ok (s, s))]
  simp only [h]

theorem blockStatement_yields (hdata : data.Closed { tag := .block })
    (hformed : ∀ t ∈ ts, Formed x.dialect (.statement ctx.settled false) t)
    (hall : ∀ t ∈ ts, StatementYields x ctx.settled false t) :
    StatementYields x ctx top (.node id data ts) := by
  have hread : ∀ (s₀ : State) (b : Bool) (cs : List String) more, s₀.ctx = ctx →
      Yields x s₀.settle (fun g => g.bareStatement top s₀.pendingLabels)
        (x.words b false (.token "\x7b" :: .indent :: (blockAt x.o cs data ts ++ more)))
        (x.Reblocks cs data ts) (x.words false false more) := by
    intro s₀ b cs more hctx
    have hblock : Yields x s₀.settle (·.block "block") _ _ _ :=
      block_reads hformed hall (by rw [ctx_settle, hctx]) rfl b cs data more "block" rfl
    refine ⟨hblock.shorter, fun n s hn hs => ?_⟩
    have htag : s.current.tag = .leftBrace := by
      have hfaces := hs
      rw [x.words_text "\x7b" .leftBrace (by decide) rfl] at hfaces
      exact hfaces.tag_eq (by simp)
    have hgo := hblock.ensures n s hn hs
    unfold Ensures at hgo ⊢
    rwa [blockStatement_eq htag]
  constructor
  · intro s₀ b more hctx _
    have hsteps : bareSteps x.o (.node id data ts) ++ more
        = .token "\x7b" :: .indent :: (blockAt x.o [] data ts ++ .newline :: more) := by
      rw [bareSteps_block hdata.core, blockSteps_eq]
      simp
    rw [hsteps]
    have hblock := hread s₀ b [] (.newline :: more) hctx
    exact (hblock.mono fun t' ht' => ht'.restates hdata.core).loosen_rest
      (x.loosens_breaks false false _)
  · intro htag s₀ b more hctx hpending _
    have hsteps : statementAt x.o (.node id data ts) .body ++ more
        = .space :: .token "\x7b" :: .indent :: (blockAt x.o data.leading data ts ++ more) := by
      rw [statementAt_body, if_pos (by rw [htag]; rfl), Tree.children, Tree.data, bodySteps_eq]
      simp
    have hblock := ((hread s₀ b data.leading more hctx).mono
      fun t' ht' => ht'.body id hdata.core).loosen_rest (x.loosens_breaks false false _)
    rw [hsteps, x.words_space]
    refine ⟨hblock.shorter, fun n s hn hs => ?_⟩
    have hread := hblock.ensures n
    rw [settle_eq hpending, hpending, x.words_text "\x7b" .leftBrace (by decide) rfl] at hread
    rw [x.words_text "\x7b" .leftBrace (by decide) rfl] at hn hs
    refine hs.takeComments fun s₁ hs₁ => ensures_get (ensures_modify ?_)
    have hs₂ := hs₁.settle
    rw [settle_eq hpending] at hs₂
    rw [hs₁.kept.pendingLabels, hpending, x.hears_nil]
    exact (hread _ hn hs₂).bind fun t' s₃ ht' => ensures_pure ht'

end
end ScriptPress.Grammar
