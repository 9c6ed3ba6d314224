import ScriptPress.Proofs.Likeness.Course

/-! # Expressions of like texts

The readers of expressions, one for each reader of the grammar.
-/
namespace ScriptPress

/-- At the end of the input, a reading misses what it is to read. -/
def Grammar.Endless {α : Type} (m : Reading α) : Prop :=
  ∀ s : State, s.current.tag = .endOfInput → ∃ d, m s = .error d

/-- A grammar whose readers for nested parts go along in like texts, and whose expressions do not
begin at the end of the input. -/
structure Grammar.Parallel (all : List Token) (g : Grammar) : Prop where
  statement : ∀ top b, Mirrors all b (g.statement top) (g.statement top) Tree.outline true
  assignment : ∀ noIn b, Mirrors all b (g.assignment noIn) (g.assignment noIn) Tree.outline true
  expression : ∀ noIn b, Mirrors all b (g.expression noIn) (g.expression noIn) Tree.outline true
  unary : ∀ b, Mirrors all b g.unary g.unary Tree.outline true
  member : ∀ allowCall b, Mirrors all b (g.member allowCall) (g.member allowCall) Tree.outline true
  endless : ∀ noIn, Endless (g.expression noIn)

namespace Grammar
variable {α β γ δ : Type} {all : List Token} {b c : Bool} {g : Grammar} {φ : α → γ} {ψ : β → δ}
  {item : Reading α} {t t' : Tree} {ts ts' : List Tree}

/-! ## Outlines -/

theorem outline_core (t : Tree) : t.outline.core = t.data.core := by
  obtain ⟨id, data, children⟩ := t
  rw [Tree.outline_node]
  rfl

theorem core_of_outline (h : t'.outline = t.outline) : t'.data.core = t.data.core := by
  rw [← outline_core, ← outline_core, h]

theorem tag_of_outline (h : t'.outline = t.outline) : t'.tag = t.tag :=
  congrArg Core.tag (core_of_outline h)

theorem datum_of_outline (h : t'.outline = t.outline) : t'.data.datum = t.data.datum :=
  congrArg Core.datum (core_of_outline h)

theorem calleeName_of_outline (h : t'.outline = t.outline) :
    t'.data.calleeName? = t.data.calleeName? := by
  have hpayload : t'.data.payload = t.data.payload := congrArg Core.payload (core_of_outline h)
  have htag : t'.data.tag = t.data.tag := tag_of_outline h
  rw [Node.calleeName?, Node.calleeName?, Node.data?, Node.data?, htag, hpayload]

theorem outlines_concat (hts : ts'.map Tree.outline = ts.map Tree.outline)
    (h : t'.outline = t.outline) :
    (ts' ++ [t']).map Tree.outline = (ts ++ [t]).map Tree.outline := by
  rw [List.map_append, List.map_append, hts, List.map_singleton, List.map_singleton, h]

/-! ## Loops -/

theorem mirrors_repeatTurns {step step' : α → Reading (Turn α β)}
    (h : ∀ a a', φ a' = φ a → Mirrors all b (step a) (step' a') (Turn.map φ ψ) b) {a a' : α}
    (ha : φ a' = φ a) : Mirrors all b (g.repeatTurns step a) (g.repeatTurns step' a') ψ b :=
  mirrors_iterate h _ ha

theorem mirrors_itemsBetweenCommas (hitem : Mirrors all true item item φ true) :
    Mirrors all true (g.itemsBetweenCommas item) (g.itemsBetweenCommas item) (List.map φ) true := by
  refine mirrors_repeatTurns (φ := List.map φ) (fun items items' hitems => ?_) rfl
  refine hitem.bind fun a a' ha => (mirrors_accept _).next fun more => ?_
  have hall : (items' ++ [a']).map φ = (items ++ [a]).map φ := by simp [hitems, ha]
  exact .ite rfl (fun _ => mirrors_again hall) fun _ => mirrors_done hall

theorem mirrors_itemsUntil {ends : Token → Bool}
    (hends : ∀ t t' : Token, t'.sym = t.sym → ends t' = ends t)
    (hitem : ∀ b, Mirrors all b item item φ true) {first first' : List α}
    (hfirst : first'.map φ = first.map φ) :
    Mirrors all b (g.itemsUntil ends item first) (g.itemsUntil ends item first') (List.map φ)
      b := by
  refine mirrors_repeatTurns (φ := List.map φ) (fun items items' hitems => ?_) hfirst
  refine mirrors_get fun s s' hb hlike => ?_
  refine (Mirrors.ite (hends _ _ hlike.sym) (fun _ => ?_) fun _ => ?_) s s' hb hlike
  · exact mirrors_done hitems
  · exact (Mirrors.weaken hitem).bind fun a a' ha => mirrors_again (by simp [hitems, ha])

/-! ## Literals -/

/-- A token that is taken for a node of its own. -/
theorem mirrors_leaf {data : String → Nat → Node} {core : String → Core}
    (h : ∀ text line, (data text line).Plain (core text)) :
    Mirrors all b (advance >>= fun t => makeNode (data t.shown t.line) [])
      (advance >>= fun t => makeNode (data t.shown t.line) []) Tree.outline true :=
  mirrors_advance.bind fun t t' ht =>
    mirrors_makeNode (h t.shown t.line) (Token.shown_of_sym ht ▸ h t'.shown t'.line) rfl

variable (hg : g.Parallel all)
include hg

theorem mirrors_arrayElement (helements : ts'.map Tree.outline = ts.map Tree.outline) :
    Mirrors all true (g.arrayElement ts) (g.arrayElement ts')
      (Turn.map (List.map Tree.outline) (List.map Tree.outline)) true := by
  refine mirrors_ifCheck (mirrors_done helements) (mirrors_ifCheck ?_ ?_)
  · refine mirrors_advance.bind fun _ _ _ => ?_
    refine (mirrors_makeNode (Node.plain_leaf _ _) (Node.plain_leaf _ _) rfl).bind fun _ _ h => ?_
    exact mirrors_again (outlines_concat helements h)
  · refine (hg.assignment false true).bind fun _ _ h => mirrors_ifCheck ?_ ?_
    · refine mirrors_advance.bind fun _ _ _ => mirrors_ifCheck ?_ ?_
      · refine mirrors_warn.next fun _ => ?_
        exact mirrors_done (outlines_concat helements h)
      · exact mirrors_again (outlines_concat helements h)
    · refine mirrors_ifCheck ?_ (mirrors_fail _)
      exact mirrors_again (outlines_concat helements h)

theorem mirrors_arrayLiteral :
    Mirrors all b g.arrayLiteral g.arrayLiteral Tree.outline true := by
  refine mirrors_advance.bind fun _ _ _ => ?_
  refine (mirrors_repeatTurns (φ := List.map Tree.outline)
    (fun _ _ => mirrors_arrayElement hg) rfl).bind fun _ _ h => ?_
  refine (mirrors_expect _ _).bind fun _ _ _ => ?_
  exact mirrors_makeNode (Node.plain_leaf _ _) (Node.plain_leaf _ _) h

omit hg in
theorem mirrors_propertyKey : Mirrors all b propertyKey propertyKey Tree.outline true := by
  refine mirrors_get fun s s' hb hlike => ?_
  dsimp only
  rw [Token.tag_of_sym hlike.sym]
  split
  · exact mirrors_leaf Node.plain_identifier s s' hb hlike
  · refine (mirrors_advance.bind fun t t' ht => ?_) s s' hb hlike
    rw [Token.shown_of_sym ht]
    exact mirrors_warn.next fun _ =>
      mirrors_makeNode (Node.plain_identifier _ _) (Node.plain_identifier _ _) rfl
  · exact mirrors_leaf Node.plain_string s s' hb hlike
  · exact mirrors_leaf Node.plain_number s s' hb hlike
  · exact mirrors_fail _ s s' hb hlike

theorem mirrors_objectProperty (hparts : ts'.map Tree.outline = ts.map Tree.outline) :
    Mirrors all true (g.objectProperty ts) (g.objectProperty ts')
      (Turn.map (List.map Tree.outline) (List.map Tree.outline)) true := by
  refine mirrors_ifCheck (mirrors_done hparts) ?_
  refine mirrors_propertyKey.bind fun key key' hkey => (mirrors_expect _ _).bind fun _ _ _ => ?_
  refine (hg.assignment false true).bind fun value value' hvalue => ?_
  have hpairs : (ts' ++ [key', value']).map Tree.outline
      = (ts ++ [key, value]).map Tree.outline := by simp [hparts, hkey, hvalue]
  refine mirrors_ifCheck (mirrors_advance.bind fun _ _ _ => mirrors_ifCheck ?_ ?_)
    (mirrors_ifCheck ?_ (mirrors_fail _))
  · exact mirrors_warn.next fun _ => mirrors_done hpairs
  · exact mirrors_again hpairs
  · exact mirrors_again hpairs

theorem mirrors_objectLiteral :
    Mirrors all b g.objectLiteral g.objectLiteral Tree.outline true := by
  refine mirrors_advance.bind fun _ _ _ => ?_
  refine (mirrors_repeatTurns (φ := List.map Tree.outline)
    (fun _ _ => mirrors_objectProperty hg) rfl).bind fun _ _ h => ?_
  refine (mirrors_expect _ _).bind fun _ _ _ => ?_
  exact mirrors_makeNode (Node.plain_leaf _ _) (Node.plain_leaf _ _) h

/-! ## Functions -/

theorem mirrors_blockAfterBrace (top : Bool) {line line' : Nat} (construct : String) :
    Mirrors all b (g.blockAfterBrace top line construct) (g.blockAfterBrace top line' construct)
      Tree.outline true := by
  have hends : ∀ t t' : Token, t'.sym = t.sym → (t'.tag == .rightBrace || t'.tag == .endOfInput)
      = (t.tag == .rightBrace || t.tag == .endOfInput) := fun t t' h => by
    rw [Token.tag_of_sym h]
  refine mirrors_freshId.next fun _ => ?_
  refine (mirrors_itemsUntil hends (hg.statement top) rfl).bind fun _ _ h => ?_
  refine mirrors_takeComments.bind fun _ _ _ => (mirrors_expect _ _).bind fun _ _ _ => ?_
  refine mirrors_pure ?_
  rw [outline_withComments _ _ (by simp), outline_withComments _ _ (by simp), Tree.outline_node,
    Tree.outline_node, h]
  rfl

omit hg in
theorem mirrors_parameters : Mirrors all true g.parameters g.parameters id true := by
  refine mirrors_ifCheck (mirrors_pure rfl) ?_
  have hname : Mirrors all true (declaredName .formalParameter >>= fun name => pure name.1)
      (declaredName .formalParameter >>= fun name => pure name.1) id true :=
    (mirrors_declaredName _).bind fun _ _ h => mirrors_pure h
  have hall := mirrors_itemsBetweenCommas (g := g) hname
  rwa [List.map_id_fun] at hall

omit hg in
theorem mirrors_functionName (role : FunctionRole) :
    Mirrors all true (functionName role) (functionName role) id true := by
  refine mirrors_get fun s s' hb hlike => ?_
  dsimp only
  rw [Token.tag_of_sym hlike.sym]
  refine (Mirrors.ite rfl (fun _ => ?_) fun _ => ?_) s s' hb hlike
  · exact (mirrors_declaredName _).bind fun _ _ h => mirrors_pure (congrArg some h)
  · exact .ite rfl (fun _ => mirrors_pure rfl) fun _ => mirrors_fail _

theorem mirrors_functionOf (role : FunctionRole) :
    Mirrors all b (g.functionOf role) (g.functionOf role) Tree.outline true := by
  refine mirrors_advance.bind fun _ _ _ => (mirrors_functionName role).next fun name => ?_
  refine (mirrors_expect _ _).bind fun _ _ _ => mirrors_parameters.next fun params => ?_
  refine (mirrors_expect _ _).bind fun _ _ _ => (mirrors_expect _ _).bind fun _ _ _ => ?_
  refine mirrors_freshId.next fun _ => mirrors_get fun s s' hb hlike => ?_
  refine ((mirrors_inFunction (mirrors_blockAfterBrace hg true "function")).bind fun r r' h =>
    mirrors_pure ?_) s s' hb hlike
  obtain ⟨body, inner⟩ := r
  obtain ⟨body', inner'⟩ := r'
  obtain ⟨hbody, hinner⟩ := Prod.mk.inj h
  obtain rfl : inner' = inner := hinner
  have hbody : body'.outline = body.outline := hbody
  simp only [Tree.outline_node, (Node.plain_functionNode _ _ _ _).core, List.map_cons,
    List.map_nil, hbody]

/-! ## Operands -/

omit hg in
/-- What is read after a slash was read again, if it was one: a regular expression, then. -/
theorem mirrors_rescanned {f : PUnit → Reading Tree}
    (hpattern : ∀ s : State, s.current.tag = .regExp →
      f ⟨⟩ s = (advance >>= fun t => makeNode (.regExp t.shown t.line) []) s)
    (hf : Mirrors all b (f ⟨⟩) (f ⟨⟩) Tree.outline true) {s s' : State} (hb : Begun b s)
    (hlike : s.Like s') : MirrorsAt all true Tree.outline s s'
      (if s.current.isSlash = true then rescan >>= f else f ⟨⟩)
      (if s'.current.isSlash = true then rescan >>= f else f ⟨⟩) := by
  rw [Token.isSlash_of_sym hlike.sym, rescan_congr hpattern]
  split
  · next hslash =>
    refine mirrors_pattern (fun t t' ht => ?_) hslash hb hlike
    rw [Token.shown_of_sym ht]
    exact mirrors_makeNode (Node.plain_regExp _ _) (Node.plain_regExp _ _) rfl
  · exact hf s s' hb hlike

theorem mirrors_primary : Mirrors all b g.primary g.primary Tree.outline true := by
  refine mirrors_get fun s s' hb hlike => mirrors_rescanned (fun s hs => ?_) ?_ hb hlike
  · beta_reduce
    rw [bind_ok (rfl : (get : Reading State) s = .ok (s, s))]
    simp only [hs]
  refine mirrors_get fun s s' hb hlike => ?_
  dsimp only
  rw [Token.tag_of_sym hlike.sym]
  split
  · exact mirrors_arrayLiteral hg s s' hb hlike
  · exact mirrors_objectLiteral hg s s' hb hlike
  · refine (mirrors_advance.bind fun _ _ _ => (hg.expression false true).bind fun _ _ h => ?_)
      s s' hb hlike
    exact (mirrors_expect _ _).bind fun _ _ _ => mirrors_pure h
  · refine (mirrors_advance.bind fun t t' ht => ?_) s s' hb hlike
    rw [Token.shown_of_sym ht]
    refine mirrors_warnOfKeyword.next fun _ => (mirrors_modifyScope _).next fun _ => ?_
    exact mirrors_makeNode (Node.plain_identifier _ _) (Node.plain_identifier _ _) rfl
  · exact mirrors_leaf Node.plain_number s s' hb hlike
  · exact mirrors_leaf Node.plain_string s s' hb hlike
  · exact mirrors_leaf Node.plain_regExp s s' hb hlike
  · refine (mirrors_advance.bind fun t t' ht => ?_) s s' hb hlike
    rw [Token.datum_of_sym ht]
    have hnode : Mirrors all true (makeNode (.primary (t.datum.getD .nullValue) t.line) [])
        (makeNode (.primary (t.datum.getD .nullValue) t'.line) []) Tree.outline true :=
      mirrors_makeNode (Node.plain_primary _ _) (Node.plain_primary _ _) rfl
    exact .ite rfl (fun _ => (mirrors_modifyScope _).next fun _ => hnode) fun _ => hnode
  · exact mirrors_fail _ s s' hb hlike
  · exact mirrors_unexpected s s' hb hlike

theorem mirrors_arguments :
    Mirrors all b g.arguments g.arguments (List.map Tree.outline) true := by
  have hclose : ∀ {args args' : List Tree}, args'.map Tree.outline = args.map Tree.outline →
      Mirrors all true (expect .rightParen .parenAfterArguments >>= fun _ => pure args)
        (expect .rightParen .parenAfterArguments >>= fun _ => pure args') (List.map Tree.outline)
        true :=
    fun h => (mirrors_expect _ _).bind fun _ _ _ => mirrors_pure h
  refine mirrors_advance.bind fun _ _ _ => mirrors_ifCheck (hclose rfl) ?_
  exact (mirrors_itemsBetweenCommas (hg.assignment false true)).bind fun _ _ h => hclose h

omit hg in
theorem mirrors_propertyName : Mirrors all true propertyName propertyName id true := by
  refine mirrors_get fun s s' hb hlike => ?_
  dsimp only
  rw [Token.tag_of_sym hlike.sym]
  split
  · refine (mirrors_advance.bind fun _ _ h => ?_) s s' hb hlike
    rw [Token.shown_of_sym h]
    exact mirrors_pure rfl
  · refine (mirrors_advance.bind fun _ _ h => ?_) s s' hb hlike
    rw [Token.shown_of_sym h]
    exact mirrors_warn.next fun _ => mirrors_pure rfl
  · exact mirrors_fail _ s s' hb hlike

theorem mirrors_access (allowCall : Bool) (h : t'.outline = t.outline) :
    Mirrors all true (g.access allowCall t) (g.access allowCall t')
      (Turn.map Tree.outline Tree.outline) true := by
  refine mirrors_get fun s s' hb hlike => ?_
  dsimp only
  rw [Token.tag_of_sym hlike.sym, calleeName_of_outline h]
  split
  · refine (mirrors_advance.bind fun _ _ _ => mirrors_propertyName.next fun name => ?_) s s' hb
      hlike
    refine (mirrors_makeNode (Node.plain_identifier _ _) (Node.plain_identifier _ _) rfl).bind ?_
    intro node node' hnode
    refine (mirrors_makeNode (Node.plain_leaf _ _) (Node.plain_leaf _ _) ?_).bind fun _ _ h' =>
      mirrors_again h'
    simp [h, hnode]
  · refine (mirrors_advance.bind fun _ _ _ => (hg.expression false true).bind fun index index' hi =>
      (mirrors_expect _ _).bind fun _ _ _ => ?_) s s' hb hlike
    refine (mirrors_makeNode (Node.plain_leaf _ _) (Node.plain_leaf _ _) ?_).bind fun _ _ h' =>
      mirrors_again h'
    simp [h, hi]
  · refine (Mirrors.ite rfl (fun _ => (mirrors_arguments hg).bind fun args args' hargs => ?_)
      fun _ => mirrors_done h) s s' hb hlike
    have hcall : Mirrors all true
        (makeNode (.call .call t.data s.current.line) (t :: args) >>= fun node =>
          (pure (.again node) : Reading (Turn Tree Tree)))
        (makeNode (.call .call t'.data s'.current.line) (t' :: args') >>= fun node =>
          pure (.again node)) (Turn.map Tree.outline Tree.outline) true :=
      (mirrors_makeNode (Node.plain_call _ _ _) (Node.plain_call _ _ _) (by simp [h, hargs])).bind
        fun _ _ h' => mirrors_again h'
    exact .ite rfl (fun _ => (mirrors_modifyScope _).next fun _ => hcall) fun _ => hcall
  · exact mirrors_done h s s' hb hlike

theorem mirrors_memberOf (allowCall : Bool) :
    Mirrors all b (g.memberOf allowCall) (g.memberOf allowCall) Tree.outline true := by
  have hloop : ∀ t t' : Tree, t'.outline = t.outline → Mirrors all true
      (g.repeatTurns (g.access allowCall) t) (g.repeatTurns (g.access allowCall) t')
      Tree.outline true :=
    fun _ _ h => mirrors_repeatTurns (φ := Tree.outline) (fun _ _ => mirrors_access hg allowCall) h
  refine mirrors_get fun s s' hb hlike => ?_
  dsimp only
  rw [Token.tag_of_sym hlike.sym]
  refine (Mirrors.ite rfl (fun _ => ?_) fun _ => .ite rfl
    (fun _ => (mirrors_functionOf hg .expression).bind hloop)
    fun _ => (mirrors_primary hg).bind hloop) s s' hb hlike
  refine mirrors_advance.bind fun u u' _ => (hg.member false true).bind fun callee callee' hc => ?_
  have hnew : ∀ args args' : List Tree, args'.map Tree.outline = args.map Tree.outline →
      Mirrors all true
        (makeNode (.call .kwNew callee.data u.line) (callee :: args) >>= fun object =>
          g.repeatTurns (g.access allowCall) object)
        (makeNode (.call .kwNew callee'.data u'.line) (callee' :: args') >>= fun object =>
          g.repeatTurns (g.access allowCall) object) Tree.outline true := fun args args' h =>
    (mirrors_makeNode (Node.plain_call _ _ _) (Node.plain_call _ _ _) (by simp [hc, h])).bind hloop
  exact mirrors_ifCheck ((mirrors_arguments hg).bind hnew) (hnew [] [] rfl)

/-! ## Operators -/

theorem mirrors_steppedOperand :
    Mirrors all b g.steppedOperand g.steppedOperand Tree.outline true := by
  refine (mirrors_memberOf hg true).bind fun operand operand' h => ?_
  refine mirrors_get fun s s' hb hlike => ?_
  have hstep : (isStep s'.current && !s'.current.newlineBefore)
      = (isStep s.current && !s.current.newlineBefore) := by
    simp only [isStep, Bool.and_or_distrib_right]
    rw [(hlike.current hb).same (by simp), (hlike.current hb).same (by simp)]
  dsimp only
  rw [hstep, tag_of_outline h]
  refine (Mirrors.ite rfl (fun _ => .ite rfl (fun _ => ?_) fun _ => mirrors_fail _) fun _ =>
    mirrors_pure h) s s' hb hlike
  refine mirrors_advance.bind fun t t' ht => ?_
  rw [Token.tag_of_sym ht]
  exact mirrors_makeNode (Node.plain_step _ _ _) (Node.plain_step _ _ _) (by simp [h])

theorem mirrors_unaryOf : Mirrors all b g.unaryOf g.unaryOf Tree.outline true := by
  refine mirrors_get fun s s' hb hlike => ?_
  have htag := Token.tag_of_sym hlike.sym
  have hoperator : unaryOperator? s'.current = unaryOperator? s.current := by
    rw [unaryOperator?, unaryOperator?, htag, Token.datum_of_sym hlike.sym]
  dsimp only
  rw [hoperator]
  split
  · refine (mirrors_advance.bind fun _ _ _ => (hg.unary true).bind fun _ _ h => ?_) s s' hb hlike
    exact mirrors_makeNode (Node.plain_unary _ _) (Node.plain_unary _ _) (by simp [h])
  · have hstep : isStep s'.current = isStep s.current := by rw [isStep, isStep, htag]
    refine (Mirrors.ite hstep (fun _ => mirrors_advance.bind fun _ _ _ => ?_) fun _ =>
      mirrors_steppedOperand hg) s s' hb hlike
    refine (mirrors_memberOf hg true).bind fun operand operand' h => ?_
    rw [tag_of_outline h, htag]
    refine .ite rfl (fun _ => ?_) fun _ => mirrors_failAt _ _
    exact mirrors_makeNode (Node.plain_step _ _ _) (Node.plain_step _ _ _) (by simp [h])

omit hg in
theorem mirrors_binaryTurn (noIn : Bool) (level : Nat) {operand : Reading Tree}
    (ho : Mirrors all true operand operand Tree.outline true) (h : t'.outline = t.outline) :
    Mirrors all true (binaryTurn noIn level operand t) (binaryTurn noIn level operand t')
      (Turn.map Tree.outline Tree.outline) true := by
  refine mirrors_get fun s s' hb hlike => ?_
  have hoperator : binaryOperator? noIn s'.current = binaryOperator? noIn s.current := by
    simp only [binaryOperator?, Token.tag_of_sym hlike.sym, Token.datum_of_sym hlike.sym]
  rw [hoperator]
  split
  · refine (Mirrors.ite rfl (fun _ => mirrors_advance.bind fun _ _ _ => ho.bind fun _ _ h' => ?_)
      fun _ => mirrors_done h) s s' hb hlike
    exact (mirrors_makeNode (Node.plain_binary _ _ _ _ _) (Node.plain_binary _ _ _ _ _)
      (by simp [h, h'])).bind fun _ _ hnode => mirrors_again hnode
  · exact mirrors_done h s s' hb hlike

theorem mirrors_binaryOf (noIn : Bool) (levels : Nat) :
    Mirrors all b (g.binaryOf noIn levels) (g.binaryOf noIn levels) Tree.outline true := by
  induction levels generalizing b with
  | zero => exact mirrors_unaryOf hg
  | succ levels ih =>
    exact ih.bind fun _ _ h => mirrors_repeatTurns (φ := Tree.outline)
      (fun _ _ => mirrors_binaryTurn noIn _ ih) h

theorem mirrors_conditionalOf (noIn : Bool) :
    Mirrors all b (g.conditionalOf noIn) (g.conditionalOf noIn) Tree.outline true := by
  refine (mirrors_binaryOf hg noIn binaryLevels).bind fun _ _ hcondition => ?_
  refine mirrors_ifCheck (mirrors_advance.bind fun _ _ _ => ?_) (mirrors_pure hcondition)
  refine (hg.assignment false true).bind fun _ _ hyes => (mirrors_expect _ _).bind fun _ _ _ => ?_
  refine (hg.assignment noIn true).bind fun _ _ hno => ?_
  exact mirrors_makeNode (Node.plain_leaf _ _) (Node.plain_leaf _ _)
    (by simp [hcondition, hyes, hno])

theorem mirrors_assignmentOf (noIn : Bool) :
    Mirrors all b (g.assignmentOf noIn) (g.assignmentOf noIn) Tree.outline true := by
  refine (mirrors_conditionalOf hg noIn).bind fun _ _ htarget => ?_
  rw [tag_of_outline htarget]
  refine mirrors_ifCheck (.ite rfl (fun _ => ?_) fun _ => mirrors_fail _) (mirrors_pure htarget)
  refine mirrors_advance.bind fun t t' ht => (hg.assignment noIn true).bind fun _ _ hvalue => ?_
  rw [Token.datum_of_sym ht]
  exact mirrors_makeNode (Node.plain_assign _ _ _ _) (Node.plain_assign _ _ _ _)
    (by simp [htarget, hvalue])

omit hg in
theorem mirrors_sequenceTurn {assignment : Reading Tree}
    (ha : Mirrors all true assignment assignment Tree.outline true) (h : t'.outline = t.outline) :
    Mirrors all true (sequenceTurn assignment t) (sequenceTurn assignment t')
      (Turn.map Tree.outline Tree.outline) true := by
  refine mirrors_ifCheck (mirrors_advance.bind fun _ _ _ => ha.bind fun _ _ h' => ?_)
    (mirrors_done h)
  exact (mirrors_makeNode (Node.plain_leaf _ _) (Node.plain_leaf _ _) (by simp [h, h'])).bind
    fun _ _ hnode => mirrors_again hnode

theorem mirrors_expressionOf (noIn : Bool) :
    Mirrors all b (g.expressionOf noIn) (g.expressionOf noIn) Tree.outline true := by
  refine (mirrors_assignmentOf hg noIn).bind fun _ _ h => ?_
  exact mirrors_repeatTurns (φ := Tree.outline)
    (fun _ _ => mirrors_sequenceTurn (mirrors_assignmentOf hg noIn)) h

/-! ## The end of the input -/

omit hg

theorem Endless.bind {m : Reading α} {f : α → Reading β} (hm : Endless m) : Endless (m >>= f) :=
  fun s hs => (hm s hs).imp fun _ hd => bind_error hd

theorem endless_get {f : State → Reading β}
    (hf : ∀ s : State, s.current.tag = .endOfInput → ∃ d, f s s = .error d) : Endless (get >>= f) :=
  hf

theorem endless_unexpected : Endless (unexpected : Reading α) := fun s _ => unexpected_fails s

theorem endless_primary : Endless g.primary := by
  refine endless_get fun s hs => ?_
  have hslash : s.current.isSlash = false := by simp [Token.isSlash, hs]
  rw [hslash, if_neg Bool.false_ne_true]
  beta_reduce
  rw [bind_ok (rfl : (get : Reading State) s = .ok (s, s))]
  simp only [hs]
  exact endless_unexpected s hs

theorem endless_memberOf (allowCall : Bool) : Endless (g.memberOf allowCall) := by
  refine endless_get fun s hs => ?_
  simp only [hs]
  exact endless_primary.bind s hs

theorem endless_unaryOf : Endless g.unaryOf := by
  refine endless_get fun s hs => ?_
  have hoperator : unaryOperator? s.current = none := by simp [unaryOperator?, hs]
  have hstep : isStep s.current = false := by
    rw [isStep, hs]
    rfl
  simp only [hoperator, hstep]
  exact (endless_memberOf true).bind s hs

theorem endless_binaryOf (noIn : Bool) (levels : Nat) : Endless (g.binaryOf noIn levels) := by
  induction levels with
  | zero => exact endless_unaryOf
  | succ levels ih => exact ih.bind

theorem endless_assignmentOf (noIn : Bool) : Endless (g.assignmentOf noIn) :=
  (endless_binaryOf noIn binaryLevels).bind.bind

theorem endless_expressionOf (noIn : Bool) : Endless (g.expressionOf noIn) :=
  (endless_assignmentOf noIn).bind

end Grammar
end ScriptPress
