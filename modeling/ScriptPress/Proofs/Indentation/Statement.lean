import ScriptPress.Proofs.Indentation.Expression
import ScriptPress.Proofs.Shape.Children

/-! # The lines of statements

A statement begins its line in a list or as a body without braces, and lays out the lines of the
statements in it; as a body with braces or behind an `else` it lays out those alone.
-/
namespace ScriptPress
open Lexer Tree Render

variable {o : RenderOptions} {dialect : Dialect} {ctx : Ctx} {top : Bool} {d : Nat} {t : Tree}
variable {id : NodeId} {data : Node} {m : Indented} {P : Sym → Prop}
variable {xs ys : List WriterStep} {ms ks : List Indented} {ts : List Tree}

/-! ## First tokens -/

theorem Indented.leads_of_heads
    (hsteps : m.steps o = (if m.setBack then [.setBackLine] else []) ++ ys)
    (h : Heads dialect P ys) : m.Leads o := by
  obtain ⟨step, more, k, rfl, hs, hgenuine, -⟩ := h
  obtain ⟨c, rest, htext⟩ := List.exists_cons_of_ne_nil hgenuine.ne_nil
  have hspace : isSpace c = false := hgenuine.head_not_space c (by rw [htext]; rfl)
  exact ⟨step, more, k, c, rest, hsteps, hs, htext, hspace⟩

/-- What is written of a label begins with no token, but with the setback. -/
theorem not_heads_label (h : t.tag = .label) : ¬ Heads dialect P (bareSteps o t) := by
  have htag : t.data.tag = .label := h
  rintro ⟨step, more, k, hsteps, hs, -⟩
  cases hparts : t.children with
  | nil =>
    obtain ⟨rfl, -⟩ : WriterStep.missing = step ∧ _ := by
      simpa [bareSteps, bareStatement, htag, hparts] using hsteps
    cases hs
  | cons name rest =>
    obtain ⟨rfl, -⟩ : WriterStep.setBackLine = step ∧ _ := by
      simpa [bareSteps, bareStatement, htag, hparts] using hsteps
    cases hs

theorem Tree.not_clause (h : t.isStatement = true) : t.tag ≠ .kwCase ∧ t.tag ≠ .kwDefault := by
  constructor <;> rintro htag <;> simp [Tree.isStatement, htag, Tag.isStatement] at h

theorem Indented.steps_statement (h : t.isStatement = true) :
    (Indented.mk t d).steps o = bareSteps o t := by
  simp [Indented.steps, Tree.not_clause h]

/-- Every statement begins with a token, which is set back in a label alone. -/
theorem Formed.leads (h : Formed dialect (.statement ctx top) t) : (Indented.mk t d).Leads o := by
  have hstatement : t.isStatement = true := h.suits
  rcases h.starts_or_label (o := o) with hheads | ⟨hlabel, ys, hys, hheads⟩
  · have hlabel : t.tag ≠ .label := fun hlabel => not_heads_label hlabel hheads
    refine Indented.leads_of_heads ?_ hheads
    simp [Indented.steps_statement hstatement, Indented.setBack, hlabel, Tree.not_clause hstatement]
  · refine Indented.leads_of_heads ?_ hheads
    simp [Indented.steps_statement hstatement, Indented.setBack, hlabel, hys]

namespace Render

theorem endsLine_comments (kind : PropertyKind) (data : Node) :
    ∀ s ∈ commentSteps o kind data, s.endsLine = true := by
  unfold commentSteps
  split
  · exact List.forall_mem_map.mpr fun _ _ => rfl
  · simp

theorem flat_comments (kind : PropertyKind) (data : Node) :
    ∀ s ∈ commentSteps o kind data, s.isFlat = true :=
  fun s hs => WriterStep.isFlat_of_endsLine (endsLine_comments kind data s hs)

theorem endsLine_gap (first : Bool) : ∀ s ∈ labelGap o first, s.endsLine = true := by
  unfold labelGap
  split <;> simp

theorem endsLine_listedLead (t : Tree) (first : Bool) :
    ∀ s ∈ listedLead o t first, s.endsLine = true := by
  intro s hs
  simp only [listedLead, List.mem_append, List.mem_cons] at hs
  rcases hs with (rfl | hs) | hs
  · rfl
  · split at hs
    · exact endsLine_gap first s hs
    · cases hs
  · exact endsLine_comments .comments t.data s hs

/-! ## Roles -/

namespace StatementLays

/-- A statement in a list begins a line. -/
theorem listed_of_bare (hf : Formed dialect (.statement ctx top) t)
    (h : Lays o d (bareSteps o t) (indentedIn d t)) (first : Bool) :
    Lays o d (statementAt o t (.listed first)) (indentedAt d .listed t) := by
  have hsteps : (Indented.mk t d).steps o = bareSteps o t := Indented.steps_statement hf.suits
  have hline : Lays o d (listedLead o t first ++ (Indented.mk t d).steps o)
      (⟨t, d⟩ :: indentedIn d t) :=
    .line (m := ⟨t, d⟩) hf.leads (List.cons_ne_nil _ _) (endsLine_listedLead t first) (hsteps ▸ h)
  rw [statementAt_listed, indentedAt_eq, ← hsteps]
  exact hline

/-- The roles of a statement that is no block. -/
theorem of_bare (hf : Formed dialect (.statement ctx top) t) (hblock : t.tag ≠ .block)
    (h : ∀ d, Lays o d (bareSteps o t) (indentedIn d t)) : StatementLays o t := by
  have hbody : ∀ d, Lays o d (statementAt o t .body) (indentedAt d .body t) := by
    intro d
    have hdeeper : indentedAt d .body t = indentedAt (d + 1) .listed t := by
      simp [indentedAt_eq, Position.beginsLine, Position.depth, hblock]
    rw [statementAt_body, if_neg (by simpa using hblock), hdeeper]
    exact (listed_of_bare hf (h (d + 1)) true).nest
  refine ⟨fun d first => listed_of_bare hf (h d) first, hbody, fun d => ?_⟩
  rw [statementAt_otherwise]
  split
  · next hif =>
    have hsame : indentedAt d .otherwise t = indentedIn d t := by
      have htag : t.tag = .kwIf := by simpa using hif
      simp [indentedAt_eq, Position.beginsLine, Position.depth, htag]
    rw [hsame, ← bareSteps_ofIf (by simpa using hif)]
    exact ((h d).cons rfl).behind _ (flat_comments _ _)
  · next hif =>
    have hsame : indentedAt d .otherwise t = indentedAt d .body t := by
      have htag : t.tag ≠ .kwIf := by simpa using hif
      simp [indentedAt_eq, Position.beginsLine, Position.depth, htag]
    rw [hsame]
    exact hbody d

end StatementLays

/-- Statements in a list, each on lines of its own. -/
theorem listed_lays (h : ∀ t ∈ ts, StatementLays o t) :
    Lays o d (listedAt o ts) (ts.flatMap (indentedAt d .listed)) := by
  cases ts with
  | nil => exact .nil
  | cons t ts =>
    obtain ⟨ht, hrest⟩ := List.forall_mem_cons.mp h
    exact (ht.listed d true).append (.flatMap fun t ht => (hrest t ht).listed d false)

/-- What stands in braces. -/
theorem braces_lay (h : Lays o (d + 1) xs ms) :
    Lays o d (.indent :: (xs ++ [.outdent, .newline, .token "\x7d"])) ms := by
  have hnest := h.nest.snoc [.newline, .token "\x7d"] (by simp)
  simpa using hnest

theorem blockRest_lays (h : ∀ t ∈ ts, StatementLays o t) (xs : List WriterStep)
    (hxs : ∀ s ∈ xs, s.isFlat = true) :
    Lays o d (.indent :: (xs ++ blockRest o data (ts.map (part o))))
      (ts.flatMap (indentedAt (d + 1) .listed)) := by
  have hinner := ((listed_lays (d := d + 1) h).snoc (trailingComments o data)
    (flat_comments .trailingComments data)).behind xs hxs
  rw [blockRest, listed_eq]
  simpa using braces_lay hinner

theorem block_lays (h : ∀ t ∈ ts, StatementLays o t) :
    Lays o d (blockSteps o data (ts.map (part o))) (ts.flatMap (indentedAt (d + 1) .listed)) :=
  .cons rfl (blockRest_lays h [] (by simp))

/-- A statement that is no block. -/
theorem StatementLays.of_node {core : Core} (hdata : data.core = core) (hblock : core.tag ≠ .block)
    (hf : Formed dialect (.statement ctx top) (.node id data ts))
    (h : ∀ d, Lays o d (bareSteps o (.node id data ts))
      (indentedUnder d (core.tag.positions ts.length) ts)) :
    StatementLays o (.node id data ts) := by
  have htag : (Tree.node id data ts).tag = core.tag := congrArg Core.tag hdata
  refine .of_bare hf (by rwa [htag]) fun d => ?_
  rw [indentedIn_node hdata hblock]
  exact h d

theorem StatementLays.of_block (hdata : data.core = { tag := .block })
    (hf : Formed dialect (.statement ctx top) (.node id data ts))
    (hall : ∀ t ∈ ts, StatementLays o t) : StatementLays o (.node id data ts) := by
  have htag : data.tag = .block := congrArg Core.tag hdata
  have hbare (d : Nat) :
      Lays o d (bareSteps o (.node id data ts)) (indentedIn d (.node id data ts)) := by
    rw [bareSteps_block hdata, indentedIn_block htag]
    exact (block_lays hall).snoc _ (by simp)
  have hbody : ∀ d p, p = .body ∨ p = .otherwise →
      Lays o d (statementAt o (.node id data ts) .body) (indentedAt d p (.node id data ts)) := by
    intro d p hp
    have hsame : indentedAt d p (.node id data ts) = indentedIn d (.node id data ts) := by
      have hnode : (Tree.node id data ts).tag = .block := htag
      rcases hp with rfl | rfl <;>
        simp [indentedAt_eq, Position.beginsLine, Position.depth, hnode]
    rw [hsame, indentedIn_block htag, statementAt_body,
      if_pos (by simp [Tree.tag, Tree.data, htag])]
    refine .cons rfl (.cons rfl ?_)
    exact blockRest_lays hall _ (flat_comments .comments data)
  refine ⟨fun d first => listed_of_bare hf (hbare d) first, fun d => hbody d _ (.inl rfl),
    fun d => ?_⟩
  rw [statementAt_otherwise, if_neg (by simp [Tree.tag, Tree.data, htag])]
  exact hbody d _ (.inr rfl)

/-! ## Heads -/

theorem header_lays {test : Tree} {rest : List WriterStep} (keyword : String)
    (ht : ExprLays o test) (h : Lays o d rest ms) :
    Lays o d (headerAt o keyword test rest) (indentedAt d .operand test ++ ms) := by
  have htest := (ht d { use := .operand Precedence.comma }).behind (headed keyword)
    (by simp [headed])
  exact htest.append (h.cons rfl)

theorem var_lays {names : List Tree} {noIn : Bool}
    (h : ∀ t ∈ names, Lays o d (statementAt o t (.declared noIn)) (indentedAt d .operand t)) :
    Lays o d (varAt o names noIn) (names.flatMap (indentedAt d .operand)) :=
  (separated_lays h).cons rfl

theorem headerPart_lays (h : ElementLays o t) :
    Lays o d (headerPartAt o t) (indentedAt d .operand t) :=
  h.item { use := .operand Precedence.comma } [.token ";"] [.token ";", .space] (by simp) (by simp)

theorem flat_afterBody (p : Part) : (afterBody p).isFlat = true := by
  unfold afterBody
  split <;> rfl

/-! ## Simple statements -/

namespace StatementLays

/-- A statement without parts. -/
theorem of_leaf {core : Core} (hdata : data.core = core) (hblock : core.tag ≠ .block)
    (hf : Formed dialect (.statement ctx top) (.node id data []))
    (hflat : ∀ s ∈ bareSteps o (.node id data []), s.isFlat = true) :
    StatementLays o (.node id data []) := by
  refine .of_node hdata hblock hf fun d => ?_
  rw [indentedUnder_nil]
  exact .flat hflat

/-- An expression, behind the keyword of the statement if it has one. -/
theorem of_value {core : Core} {value : Tree} {place : Place} (lead : List WriterStep)
    (hdata : data.core = core) (hcore : core.tag ≠ .block ∧ core.tag.positions 1 = [])
    (hf : Formed dialect (.statement ctx top) (.node id data [value]))
    (hsteps : bareSteps o (.node id data [value]) = lead ++ exprAt o value place ++ [.semicolon])
    (hlead : ∀ s ∈ lead, s.isFlat = true) (hvalue : ExprLays o value) :
    StatementLays o (.node id data [value]) := by
  refine .of_node hdata hcore.1 hf fun d => ?_
  have hpart : indentedUnder d (core.tag.positions [value].length) [value]
      = indentedAt d .operand value := by
    rw [List.length_singleton, hcore.2, indentedUnder_operands, List.flatMap_singleton]
  rw [hsteps, hpart]
  exact ((hvalue d place).behind lead hlead).snoc _ (by simp)

/-- A body behind an expression in parentheses. -/
theorem of_header {core : Core} {first body : Tree} {keyword : String} (hdata : data.core = core)
    (hcore : core.tag ≠ .block ∧ core.tag.positions 2 = [.operand, .body])
    (hf : Formed dialect (.statement ctx top) (.node id data [first, body]))
    (hsteps : bareSteps o (.node id data [first, body])
      = headerAt o keyword first (statementAt o body .body))
    (hfirst : ExprLays o first) (hbody : StatementLays o body) :
    StatementLays o (.node id data [first, body]) := by
  refine .of_node hdata hcore.1 hf fun d => ?_
  have hparts : indentedUnder d (core.tag.positions [first, body].length) [first, body]
      = indentedAt d .operand first ++ indentedAt d .body body := by
    change indentedUnder d (core.tag.positions 2) [first, body] = _
    rw [hcore.2, indentedUnder_cons, indentedUnder_cons, indentedUnder_nil, List.append_nil]
  rw [hsteps, hparts]
  exact header_lays keyword hfirst (hbody.body d)

end StatementLays

/-! ## Clauses -/

theorem clauses_lay {clauses : List Tree}
    (h : ∀ t ∈ clauses, ∀ first,
      Lays o (d + 1) (statementAt o t (.switchClause first)) (indentedAt d .clause t)) :
    Lays o (d + 1) (clausesAt o clauses) (clauses.flatMap (indentedAt d .clause)) := by
  cases clauses with
  | nil => exact .nil
  | cons t clauses =>
    obtain ⟨ht, hrest⟩ := List.forall_mem_cons.mp h
    exact (ht true).append (.flatMap fun t ht => hrest t ht false)

/-- The keyword of a clause is set back. -/
theorem leads_clause (htag : t.tag = .kwCase ∨ t.tag = .kwDefault) : (Indented.mk t d).Leads o := by
  have hback : (Indented.mk t d).setBack = true := by
    rcases htag with htag | htag <;> simp [Indented.setBack, htag]
  have hsteps : (Indented.mk t d).steps o = clauseAt o t := by
    rcases htag with htag | htag <;> simp [Indented.steps, htag]
  rw [Indented.Leads, hsteps, hback]
  unfold clauseAt
  split
  · exact ⟨.token "case", _, _, 'c', _, rfl, rfl, rfl, by decide⟩
  · exact ⟨.token "default", _, _, 'd', _, rfl, rfl, rfl, by decide⟩

/-- A clause begins a line, behind the comments before it. -/
theorem clause_lays (htag : t.tag = .kwCase ∨ t.tag = .kwDefault) {first : Bool}
    (hsteps : statementAt o t (.switchClause first)
      = (.newline :: labelGap o first ++ leadingComments o t.data) ++ clauseAt o t)
    (h : Lays o (d + 1) (clauseAt o t) (indentedIn (d + 1) t)) :
    Lays o (d + 1) (statementAt o t (.switchClause first)) (indentedAt d .clause t) := by
  have hown : (Indented.mk t (d + 1)).steps o = clauseAt o t := by
    rcases htag with htag | htag <;> simp [Indented.steps, htag]
  have hlead : ∀ s ∈ .newline :: labelGap o first ++ leadingComments o t.data,
      s.endsLine = true := by
    intro s hs
    simp only [List.mem_append, List.mem_cons] at hs
    rcases hs with (rfl | hs) | hs
    · rfl
    · exact endsLine_gap first s hs
    · exact endsLine_comments .comments t.data s hs
  rw [hsteps, indentedAt_eq, ← hown]
  exact .line (m := ⟨t, d + 1⟩) (leads_clause htag) (List.cons_ne_nil _ _) hlead (hown ▸ h)

end Render

/-! ## Forms -/

theorem Formed.clause_lays (h : Formed dialect (.clause ctx) (.node id data ts))
    (ih : ∀ t ∈ ts, ∀ form, Formed dialect form t → FormLays o form t) :
    FormLays o (.clause ctx) (.node id data ts) := by
  intro d first
  cases h with
  | @case _ _ _ test parts hdata _ htest hall =>
    have htag : (Tree.node id data (test :: parts)).tag = .kwCase := congrArg Core.tag hdata.core
    have hclause : clauseAt o (.node id data (test :: parts)) = .setBackLine :: .token "case"
        :: (exprAt o test { use := .operand Precedence.comma }
          ++ .token ":" :: listedAt o parts) := by
      simp [clauseAt, htag, Tree.children]
    have htest : ExprLays o test := ih test (by simp) .expr htest
    have hlist : Lays o (d + 1) (listedAt o parts) (parts.flatMap (indentedAt (d + 1) .listed)) :=
      listed_lays fun t ht => ih t (List.mem_cons_of_mem _ ht) (.statement _ _) (hall t ht)
    refine Render.clause_lays (.inl htag) ?_ ?_
    · rw [statementAt_case hdata.core, hclause]
      simp [clauseLead, listed_eq, Tree.data]
    · rw [hclause, indentedIn_node hdata.core (by simp)]
      change Lays o (d + 1) _ (indentedAt (d + 1) .operand test
        ++ indentedUnder (d + 1) (List.replicate (parts.length + 1) .listed) parts)
      rw [indentedUnder_replicate (Nat.le_succ _)]
      exact .setBack (by decide) ((htest _ _).append (hlist.cons rfl))
  | @default _ _ _ _ hdata _ hall =>
    have htag : (Tree.node id data ts).tag = .kwDefault := congrArg Core.tag hdata.core
    have hclause : clauseAt o (.node id data ts) = .setBackLine :: .token "default"
        :: .token ":" :: listedAt o ts := by
      simp [clauseAt, htag, Tree.children]
    have hlist : Lays o (d + 1) (listedAt o ts) (ts.flatMap (indentedAt (d + 1) .listed)) :=
      listed_lays fun t ht => ih t ht (.statement _ _) (hall t ht)
    refine Render.clause_lays (.inr htag) ?_ ?_
    · rw [statementAt_default hdata.core, hclause]
      simp [clauseLead, listed_eq, Tree.data]
    · rw [hclause, indentedIn_node hdata.core (by simp)]
      change Lays o (d + 1) _ (indentedUnder (d + 1) (List.replicate ts.length .listed) ts)
      rw [indentedUnder_replicate le_rfl]
      exact .setBack (by decide) (hlist.cons rfl)

theorem Formed.handler_lays {tag : Tag} (h : Formed dialect (.handler ctx tag) (.node id data ts))
    (ih : ∀ t ∈ ts, ∀ form, Formed dialect form t → FormLays o form t) :
    FormLays o (.handler ctx tag) (.node id data ts) := by
  intro d
  rw [indentedAt_eq]
  change Lays o d _ (indentedIn d (.node id data ts))
  cases h with
  | @«catch» _ _ _ _ name body hdata _ hname hbody =>
    have hbody : BlockLays o body := ih body (by simp) (.block _ _) hbody
    rw [statementAt_catch hdata.core hname, indentedIn_node hdata.core (by simp)]
    change Lays o d _ (indentedAt d .operand name ++ (indentedAt d .block body ++ []))
    rw [hname.indented, List.nil_append, List.append_nil]
    exact Lays.behind (.cons rfl (.cons rfl (.cons rfl (hbody d)))) _ (by simp [headed])
  | @guarded _ _ _ s name guard body hdata _ _ hname hguard hbody =>
    have hbody : BlockLays o body := ih body (by simp) (.block _ _) hbody
    have hguard : ExprLays o guard := ih guard (by simp) .expr hguard
    rw [statementAt_guarded hdata.core hname, indentedIn_node hdata.core (by simp)]
    change Lays o d _ (indentedAt d .operand name ++ (indentedAt d .operand guard
      ++ (indentedAt d .block body ++ [])))
    rw [hname.indented, List.nil_append, List.append_nil]
    have hhead := (hguard d { use := .operand Precedence.comma }).behind
      (headed "catch" ++ [.token s, .token "if"]) (by simp [headed])
    simpa using hhead.append (.cons rfl (.cons rfl (hbody d)))
  | @«finally» _ _ _ body hdata _ hbody =>
    have hbody : BlockLays o body := ih body (by simp) (.block _ _) hbody
    rw [statementAt_finally hdata.core, indentedIn_node hdata.core (by simp)]
    change Lays o d _ (indentedAt d .block body ++ [])
    rw [List.append_nil]
    exact .cons rfl (.cons rfl (hbody d))

theorem Formed.declared_lays (h : Formed dialect .declared (.node id data ts))
    (ih : ∀ t ∈ ts, ∀ form, Formed dialect form t → FormLays o form t) :
    FormLays o .declared (.node id data ts) := by
  intro d noIn
  cases h with
  | declared hdata =>
    rw [statementAt_declared _ hdata.core rfl, indentedAt_leaf]
    exact .flat (by simp)
  | @initialised _ _ _ value hdata _ hvalue =>
    have hvalue : ExprLays o value := ih value (by simp) .expr hvalue
    rw [statementAt_declared _ hdata.core rfl, indentedAt_operands hdata.core fun _ => rfl,
      List.flatMap_singleton]
    exact .cons rfl (.cons rfl (.cons rfl (.cons rfl (hvalue d _))))

theorem Formed.start_lays (h : Formed dialect .start (.node id data ts))
    (ih : ∀ t ∈ ts, ∀ form, Formed dialect form t → FormLays o form t) :
    FormLays o .start (.node id data ts) := by
  intro d
  rw [statementAt_loopStart]
  cases h with
  | noStart hdata =>
    have htag : (Tree.node id data []).tag = .empty := congrArg Core.tag hdata.core
    rw [if_pos (by simp [htag]), indentedAt_leaf]
    exact .nil
  | exprStart h =>
    obtain ⟨hempty, hvar, -, -⟩ := h.expr_tag
    rw [if_neg (by simpa using hempty), if_neg (by simpa using hvar)]
    exact h.expr_lays ih d _
  | varStart hdata _ hnames =>
    have htag : (Tree.node id data ts).tag = .kwVar := congrArg Core.tag hdata.core
    rw [if_neg (by simp [htag]), if_pos (by simp [htag]),
      indentedAt_operands hdata.core fun _ => rfl]
    exact var_lays fun t ht => ih t ht .declared (hnames t ht) d true

theorem Formed.block_lays (h : Formed dialect (.block ctx top) (.node id data ts))
    (ih : ∀ t ∈ ts, ∀ form, Formed dialect form t → FormLays o form t) :
    FormLays o (.block ctx top) (.node id data ts) := by
  intro d
  cases h with
  | block hdata _ hall =>
    rw [statementAt_block, indentedAt_eq]
    change Lays o d _ (indentedIn d (.node id data ts))
    rw [indentedIn_block (congrArg Core.tag hdata.core)]
    exact Render.block_lays fun t ht => ih t ht (.statement _ _) (hall t ht)

/-- A statement lays out its line and those in it, if its parts lay out theirs. -/
theorem Formed.statement_lays (h : Formed dialect (.statement ctx top) (.node id data ts))
    (ih : ∀ t ∈ ts, ∀ form, Formed dialect form t → FormLays o form t) :
    StatementLays o (.node id data ts) := by
  have hf := h
  cases h with
  | functionStatement hdata _ hbody =>
    refine .of_node hdata.core (by simp) hf fun d => ?_
    change Lays o d _ (indentedAt d .block _ ++ [])
    rw [bareSteps_function hdata.core, List.append_nil]
    exact (function_lays (ih _ (by simp) (.block _ _) hbody)).snoc _ (by simp)
  | blockStatement hdata hall =>
    exact .of_block hdata.core hf fun t ht => ih t ht (.statement _ _) (hall t ht)
  | var hdata _ hnames =>
    refine .of_node hdata.core (by simp) hf fun d => ?_
    rw [bareSteps_var hdata.core]
    change Lays o d _ (indentedUnder d [] ts)
    rw [indentedUnder_operands]
    exact (var_lays fun t ht => ih t ht .declared (hnames t ht) d false).snoc _ (by simp)
  | empty hdata => exact .of_leaf hdata.core (by simp) hf (by simp [bareSteps_empty hdata.core])
  | @ifThen _ _ _ _ test yes hdata htest hyes =>
    have htest : ExprLays o test := ih test (by simp) .expr htest
    have hyes : StatementLays o yes := ih yes (by simp) (.statement _ _) hyes
    refine .of_node hdata.core (by simp) hf fun d => ?_
    change Lays o d _ (indentedAt d .operand test ++ (indentedAt d .body yes ++ []))
    rw [bareSteps_if hdata.core, ifSteps_then, List.append_nil]
    exact header_lays _ htest (hyes.body d)
  | @ifElse _ _ _ _ test yes no hdata htest hyes _ hno =>
    have htest : ExprLays o test := ih test (by simp) .expr htest
    have hyes : StatementLays o yes := ih yes (by simp) (.statement _ _) hyes
    have hno : StatementLays o no := ih no (by simp) (.statement _ _) hno
    refine .of_node hdata.core (by simp) hf fun d => ?_
    change Lays o d _ (indentedAt d .operand test ++ (indentedAt d .body yes
      ++ (indentedAt d .otherwise no ++ [])))
    rw [bareSteps_if hdata.core, ifSteps_else, List.append_nil]
    have hbranch := ((hno.otherwise d).cons (s := .token "else") rfl).cons
      (flat_afterBody (Render.part o yes))
    exact header_lays _ htest ((hyes.body d).append hbranch)
  | «while» hdata htest hbody =>
    exact .of_header hdata.core ⟨by simp, rfl⟩ hf (bareSteps_while hdata.core)
      (ih _ (by simp) .expr htest) (ih _ (by simp) (.statement _ _) hbody)
  | «with» hdata hobject hbody =>
    exact .of_header hdata.core ⟨by simp, rfl⟩ hf (bareSteps_with hdata.core)
      (ih _ (by simp) .expr hobject) (ih _ (by simp) (.statement _ _) hbody)
  | @doWhile _ _ _ _ body test hdata _ hbody htest =>
    have htest : ExprLays o test := ih test (by simp) .expr htest
    have hbody : StatementLays o body := ih body (by simp) (.statement _ _) hbody
    refine .of_node hdata.core (by simp) hf fun d => ?_
    change Lays o d _ (indentedAt d .body body ++ (indentedAt d .operand test ++ []))
    rw [bareSteps_do hdata.core]
    have hsemicolon : Lays o d [.semicolon] [] := .flat (by simp)
    have hend := header_lays "while" htest hsemicolon
    exact ((hbody.body d).cons rfl).append (hend.cons (flat_afterBody _))
  | @«for» _ _ _ _ start test update body hdata hstart htest hupdate hbody =>
    have hstart : ∀ d, Lays o d (statementAt o start .loopStart) (indentedAt d .operand start) :=
      ih start (by simp) .start hstart
    have htest : ElementLays o test := ih test (by simp) .part htest
    have hupdate : ElementLays o update := ih update (by simp) .part hupdate
    have hbody : StatementLays o body := ih body (by simp) (.statement _ _) hbody
    refine .of_node hdata.core (by simp) hf fun d => ?_
    change Lays o d _ (indentedAt d .operand start ++ (indentedAt d .operand test
      ++ (indentedAt d .operand update ++ (indentedAt d .body body ++ []))))
    have hhead := (hstart d).behind (headed "for") (by simp [headed])
    have hrest := (headerPart_lays htest).append ((headerPart_lays hupdate).append
      ((hbody.body d).cons (s := .token ")") rfl))
    rw [bareSteps_for hdata.core, List.append_nil]
    simpa using hhead.append hrest
  | @forIn _ _ _ _ start object body hdata hstart _ hobject hbody =>
    have hstart : ∀ d, Lays o d (statementAt o start .loopStart) (indentedAt d .operand start) :=
      ih start (by simp) .start hstart
    have hobject : ExprLays o object := ih object (by simp) .expr hobject
    have hbody : StatementLays o body := ih body (by simp) (.statement _ _) hbody
    refine .of_node hdata.core (by simp) hf fun d => ?_
    change Lays o d _ (indentedAt d .operand start ++ (indentedAt d .operand object
      ++ (indentedAt d .body body ++ [])))
    have hhead := (hstart d).behind (headed "for") (by simp [headed])
    have hrest := ((hobject d { use := .operand Precedence.comma }).cons (s := .token "in")
      rfl).append ((hbody.body d).cons (s := .token ")") rfl)
    rw [bareSteps_forIn hdata.core, List.append_nil]
    simpa using hhead.append hrest
  | jump hdata ht =>
    refine .of_leaf hdata.core (by rcases ht with rfl | rfl <;> simp) hf ?_
    simp [bareSteps_keyword hdata.core (ht.elim .inl fun ht => .inr (.inl ht))]
  | «return» hdata =>
    exact .of_leaf hdata.core (by simp) hf (by simp [bareSteps_keyword hdata.core])
  | @jumpTo _ _ _ _ tag s name hdata ht _ hname =>
    refine .of_node hdata.core (by rcases ht with rfl | rfl <;> simp) hf fun d => ?_
    have hnone : indentedUnder d (tag.positions [name].length) [name] = [] := by
      rcases ht with rfl | rfl <;>
        simp [Tag.positions, indentedUnder_operands, hname.indented]
    rw [bareSteps_jump hdata.core ht hname, hnone]
    exact .flat (by simp)
  | returnValue hdata _ hvalue =>
    exact .of_value [.token _] hdata.core ⟨by simp, rfl⟩ hf (bareSteps_value hdata.core (.inl rfl))
      (by simp) (ih _ (by simp) .expr hvalue)
  | throw hdata _ hvalue =>
    exact .of_value [.token _] hdata.core ⟨by simp, rfl⟩ hf (bareSteps_value hdata.core (.inr rfl))
      (by simp) (ih _ (by simp) .expr hvalue)
  | exprStatement hdata hvalue =>
    exact .of_value [] hdata.core ⟨by simp, rfl⟩ hf (bareSteps_expr hdata.core) (by simp)
      (ih _ (by simp) .expr hvalue)
  | @switch _ _ _ _ value clauses hdata _ hvalue hclauses =>
    have hvalue : ExprLays o value := ih value (by simp) .expr hvalue
    have hclauses : ∀ t ∈ clauses, ∀ d first,
        Lays o (d + 1) (statementAt o t (.switchClause first)) (indentedAt d .clause t) :=
      fun t ht => ih t (List.mem_cons_of_mem _ ht) (.clause _) (hclauses t ht)
    refine .of_node hdata.core (by simp) hf fun d => ?_
    change Lays o d _ (indentedAt d .operand value
      ++ indentedUnder d (List.replicate (clauses.length + 1) .clause) clauses)
    rw [bareSteps_switch hdata.core, indentedUnder_replicate (Nat.le_succ _)]
    have hinner := (clauses_lay fun t ht => hclauses t ht d).snoc (trailingComments o data)
      (flat_comments .trailingComments data)
    have hbraces := ((braces_lay hinner).cons (s := .token "\x7b") rfl).cons (s := .space) rfl
    simpa [headerAt] using header_lays "switch" hvalue hbraces
  | @«try» _ _ _ _ body catches finals hdata _ hbody hcatches hfinals =>
    have hbody : BlockLays o body := ih body (by simp) (.block _ _) hbody
    have hclauses : ∀ t ∈ catches ++ finals, ∀ d,
        Lays o d (.space :: statementAt o t .tryClause) (indentedAt d .handler t) := by
      intro t ht d
      have hmem := List.mem_cons_of_mem body ht
      rcases List.mem_append.mp ht with ht | ht
      · exact (ih t hmem (.handler _ _) (hcatches t ht) d).cons rfl
      · exact (ih t hmem (.handler _ _) (hfinals t ht) d).cons rfl
    refine .of_node hdata.core (by simp) hf fun d => ?_
    change Lays o d _ (indentedAt d .block body
      ++ indentedUnder d (List.replicate ((catches ++ finals).length + 1) .handler)
        (catches ++ finals))
    rw [bareSteps_try hdata.core, indentedUnder_replicate (Nat.le_succ _)]
    exact ((hbody d).cons (s := .space) rfl).cons (s := .token "try") rfl
      |>.append (.flatMap fun t ht => hclauses t ht d)
  | @label _ _ _ _ s name body hdata hname _ hbody =>
    have hbody : StatementLays o body := ih body (by simp) (.statement _ _) hbody
    have hword : s.toList ≠ [] := by
      obtain ⟨-, c, hc, -⟩ := hname
      rintro hnil
      simp [hnil] at hc
    refine .of_node hdata.core (by simp) hf fun d => ?_
    change Lays o d _ (indentedAt d .operand name ++ (indentedAt d .listed body ++ []))
    rw [bareSteps_label hdata.core hname, hname.indented, List.nil_append, List.append_nil]
    exact .setBack hword (.cons rfl (.cons rfl (hbody.listed d true)))

/-- What is written of a well-formed tree lays out the lines in it. -/
theorem Formed.lays {form : Form} (h : Formed dialect form t) (o : RenderOptions) :
    FormLays o form t := by
  induction t using Tree.induction generalizing form with
  | node id data children ih =>
    have ih : ∀ t ∈ children, ∀ form, Formed dialect form t → FormLays o form t :=
      fun t ht form h => ih t ht h
    have hhole : data.core = { tag := .empty } → children = [] →
        ElementLays o (.node id data children) := by
      rintro hdata rfl
      exact ⟨fun htag => absurd (congrArg Core.tag hdata) htag, fun _ d => indentedAt_leaf id data⟩
    have hexpr : Formed dialect .expr (.node id data children) →
        ElementLays o (.node id data children) :=
      fun h => ⟨fun _ => h.expr_lays ih, fun htag => absurd htag h.expr_tag.1⟩
    cases form with
    | expr => exact h.expr_lays ih
    | element =>
      cases h with
      | hole hdata => exact hhole hdata.core rfl
      | element h => exact hexpr h
    | part =>
      cases h with
      | noPart hdata => exact hhole hdata.core rfl
      | part h => exact hexpr h
    | declared => exact h.declared_lays ih
    | start => exact h.start_lays ih
    | statement ctx top => exact h.statement_lays ih
    | block ctx top => exact h.block_lays ih
    | clause ctx => exact h.clause_lays ih
    | handler ctx tag => exact h.handler_lays ih

end ScriptPress
