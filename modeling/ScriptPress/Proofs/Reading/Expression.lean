import ScriptPress.Proofs.Reading.Passage
import ScriptPress.Proofs.Shape.Nodes

/-! # Reading expressions is sound

Every expression that is read is well formed, and its reading leaves the trace of the tree. The
readers for nested parts are assumed to be sound; each reader over them then is.
-/
namespace ScriptPress.Grammar
variable {d : Dialect} {g : Grammar} {s : State} {α : Type}

/-! ## Sound readers -/

/-- A reader for trees of a form. -/
def Reads (d : Dialect) (form : Form) (named : Bool) (m : Reading Tree) : Prop :=
  ∀ s, Sane d s → Ensures False m s fun t s' => Formed d form t ∧ Passed d s s' (t.trace named)

namespace State

def role (s : State) (l : LabelEntry) : LabelRole :=
  if l.loop?.isSome then .loop else if s.pendingLabels.contains l.id then .front else .other

/-- What jumps can go to from a state. -/
def ctx (s : State) : Ctx where
  inFunction := s.scope.function?.isSome
  hasTarget := !s.targets.isEmpty
  hasLoop := s.targets.any (·.isLoop)
  labels := s.labels.map fun l => (l.name, s.role l)

/-- A state inside a statement, whose labels are no longer right in front. -/
def settle (s : State) : State := { s with pendingLabels := [] }

end State

/-- A reader for statements. An `else` that could still belong to the statement was read. -/
def ReadsStatement (d : Dialect) (top : Bool) (m : Reading Tree) : Prop :=
  ∀ s, Sane d s → Ensures False m s fun t s' => Formed d (.statement s.ctx top) t
    ∧ Passed d s.settle s' (t.trace false) ∧ (t.endsOpen = true → s'.current.tag ≠ .kwElse)

/-- Readers for nested parts that are sound. -/
structure Sound (d : Dialect) (g : Grammar) : Prop where
  statement : ∀ top, ReadsStatement d top (g.statement top)
  assignment : ∀ noIn, Reads d .expr false (g.assignment noIn)
  expression : ∀ noIn, Reads d .expr false (g.expression noIn)
  unary : Reads d .expr false g.unary
  member : ∀ allowCall, Reads d .expr false (g.member allowCall)

/-! ## Lists -/

/-- Items were read one after the other. -/
structure Listed (d : Dialect) (s : State) (P : α → Prop) (trace : α → Trace) (items : List α)
    (s' : State) : Prop where
  all : ∀ a ∈ items, P a
  passed : Passed d s s' (Trace.sum (items.map trace))

namespace Listed
variable {P : α → Prop} {trace : α → Trace} {items : List α} {s' s'' : State}

theorem nil (h : Sane d s) : Listed d s P trace [] s := ⟨by simp, Passed.refl h⟩

theorem snoc {a : α} (h : Listed d s P trace items s') (ha : P a)
    (hs : Passed d s' s'' (trace a)) : Listed d s P trace (items ++ [a]) s'' := by
  refine ⟨fun b hb => ?_, (h.passed.trans hs).cast ?_⟩
  · rcases List.mem_append.mp hb with hb | hb
    · exact h.all b hb
    · rw [List.mem_singleton.mp hb]
      exact ha
  · rw [List.map_append, Trace.sum_append, List.map_singleton, Trace.sum, Trace.sum,
      Trace.append_empty]

theorem step (h : Listed d s P trace items s') (hs : Passed d s' s'' {}) :
    Listed d s P trace items s'' :=
  ⟨h.all, (h.passed.trans hs).cast (Trace.append_empty _)⟩

end Listed

theorem itemsBetweenCommas_passes {item : Reading α} {P : α → Prop} {T : α → Trace}
    (hs : Sane d s)
    (hitem : ∀ s', Kept s s' → Sane d s' →
      Ensures False item s' fun a s'' => P a ∧ Passed d s' s'' (T a)) :
    Ensures False (g.itemsBetweenCommas item) s fun items s' =>
      items ≠ [] ∧ Listed d s P T items s' := by
  refine ensures_iterate (I := Listed d s P T) (fun items s₁ h₁ => ?_) _ (.nil hs)
  refine (hitem s₁ h₁.passed.kept h₁.passed.sane).bind fun a s₂ ⟨ha, h₂⟩ => ?_
  have hlisted := h₁.snoc ha h₂
  refine ensures_accept h₂.sane (fun s₃ _ h₃ => ?_) fun _ => ?_
  · exact ensures_pure (hlisted.step h₃)
  · exact ensures_pure ⟨by simp, hlisted⟩

theorem itemsUntil_passes {ends : Token → Bool} {item : Reading α} {P : α → Prop}
    {T : α → Trace} (first : List α) (hs : Sane d s)
    (hitem : ∀ s', ends s'.current = false → Kept s s' → Sane d s' →
      Ensures False item s' fun a s'' => P a ∧ Passed d s' s'' (T a)) :
    Ensures False (g.itemsUntil ends item first) s fun items s' =>
      ∃ rest, items = first ++ rest ∧ Listed d s P T rest s' ∧ ends s'.current = true := by
  refine ensures_iterate
    (I := fun items s' => ∃ rest, items = first ++ rest ∧ Listed d s P T rest s')
    (fun items s₁ ⟨rest, hitems, h₁⟩ => ?_) _ ⟨[], by simp, .nil hs⟩
  refine ensures_get ?_
  split
  · next hends => exact ensures_pure ⟨rest, hitems, h₁, hends⟩
  · next hgo =>
    rw [Bool.not_eq_true] at hgo
    refine (hitem s₁ hgo h₁.passed.kept h₁.passed.sane).bind fun a s₂ ⟨ha, h₂⟩ => ?_
    exact ensures_pure ⟨rest ++ [a], by simp [hitems], h₁.snoc ha h₂⟩

/-! ## Literals -/

theorem arrayElement_passes (hg : Sound d g) {elements : List Tree} {s₀ : State}
    (h : Listed d s₀ (Formed d .element) (Tree.trace false) elements s) :
    Ensures False (g.arrayElement elements) s
      (Turn.Leads (Listed d s₀ (Formed d .element) (Tree.trace false))
        (Listed d s₀ (Formed d .element) (Tree.trace false))) := by
  refine ensures_ifCheck (fun _ => ensures_pure h) fun _ => ?_
  refine ensures_ifCheck (fun _ => ?_) fun _ => ?_
  · refine ensures_advance h.passed.sane.toSteady fun s₁ h₁ => ?_
    refine ensures_makeNode h₁.sane fun id s₂ _ h₂ => ensures_pure ?_
    refine (h.step h₁).snoc (.hole (Node.plain_leaf _ _)) (h₂.cast ?_)
    rw [(Node.plain_leaf _ _).trace_parts rfl rfl rfl, Tree.traces_nil]
  refine (hg.assignment false s h.passed.sane).bind fun t s₁ ⟨ht, h₁⟩ => ?_
  have hlisted := h.snoc (.element ht) h₁
  refine ensures_ifCheck (fun _ => ?_) fun _ => ?_
  · refine ensures_advance h₁.sane.toSteady fun s₂ h₂ => ?_
    refine ensures_ifCheck (fun _ => ?_) fun _ => ensures_pure (hlisted.step h₂)
    exact ensures_warn h₂.sane fun s₃ _ h₃ => ensures_pure ((hlisted.step h₂).step h₃)
  · refine ensures_ifCheck (fun _ => ensures_pure hlisted) fun _ => ensures_fail

theorem arrayLiteral_reads (hg : Sound d g) : Reads d .expr false g.arrayLiteral := by
  intro s hs
  refine ensures_advance hs.toSteady fun s₁ h₁ => ?_
  refine (ensures_iterate (fun _ _ => arrayElement_passes hg) _ (.nil h₁.sane)).bind
    fun elements s₂ h₂ => ?_
  refine ensures_expect h₂.passed.sane fun s₃ _ h₃ => ?_
  refine ensures_makeNode_last h₃.sane fun id s₄ _ h₄ => ?_
  refine ⟨.array (Node.plain_leaf _ _) h₂.all, ((h₁.trans h₂.passed).trans (h₃.trans h₄)).cast ?_⟩
  rw [(Node.plain_leaf _ _).trace_quiet rfl]
  simp

/-- The keys and values of an object were read one after the other. -/
def Paired (d : Dialect) (s : State) (parts : List Tree) (s' : State) : Prop :=
  ∃ pairs, parts = Tree.flatPairs pairs ∧ (∀ p ∈ pairs, IsKey d p.1)
    ∧ (∀ p ∈ pairs, Formed d .expr p.2)
    ∧ Passed d s s' (Tree.traces { tag := .objectLit } 0 parts)

theorem Paired.sane {s' : State} {parts : List Tree} (h : Paired d s parts s') : Sane d s' := by
  obtain ⟨-, -, -, -, hpassed⟩ := h
  exact hpassed.sane

theorem Paired.step {s' s'' : State} {parts : List Tree} (h : Paired d s parts s')
    (hs : Passed d s' s'' {}) : Paired d s parts s'' := by
  obtain ⟨pairs, hparts, hkeys, hvalues, hpassed⟩ := h
  exact ⟨pairs, hparts, hkeys, hvalues, (hpassed.trans hs).cast (Trace.append_empty _)⟩

theorem length_flatPairs (pairs : List (Tree × Tree)) :
    (Tree.flatPairs pairs).length = 2 * pairs.length := by
  induction pairs with
  | nil => rfl
  | cons p pairs ih =>
    have hcons : Tree.flatPairs (p :: pairs) = p.1 :: p.2 :: Tree.flatPairs pairs := rfl
    simp only [hcons, List.length_cons, ih]
    omega

theorem Paired.snoc {s' s₁ s₂ : State} {parts : List Tree} {key value : Tree}
    (h : Paired d s parts s') (hkey : IsKey d key) (hvalue : Formed d .expr value)
    (h₁ : Passed d s' s₁ (key.trace true)) (h₂ : Passed d s₁ s₂ (value.trace false)) :
    Paired d s (parts ++ [key, value]) s₂ := by
  obtain ⟨pairs, rfl, hkeys, hvalues, hpassed⟩ := h
  refine ⟨pairs ++ [(key, value)], by simp [Tree.flatPairs], ?_, ?_, ?_⟩
  · intro p hp
    rcases List.mem_append.mp hp with hp | hp
    · exact hkeys p hp
    · rw [List.mem_singleton.mp hp]
      exact hkey
  · intro p hp
    rcases List.mem_append.mp hp with hp | hp
    · exact hvalues p hp
    · rw [List.mem_singleton.mp hp]
      exact hvalue
  · refine (hpassed.trans (h₁.trans h₂)).cast ?_
    have hkeyAt : Core.names { tag := .objectLit } (0 + (Tree.flatPairs pairs).length) = true := by
      simp [Core.names, length_flatPairs]
    have hvalueAt : Core.names { tag := .objectLit } (0 + (Tree.flatPairs pairs).length + 1)
        = false := by
      simp [Core.names, length_flatPairs]
    rw [Tree.traces_append, Tree.traces_cons, Tree.traces_cons, hkeyAt, hvalueAt, Tree.traces_nil,
      Trace.append_empty]

theorem propertyKey_passes (hs : Sane d s) : Ensures False propertyKey s fun key s' =>
    IsKey d key ∧ Passed d s s' (key.trace true) := by
  refine ensures_get ?_
  dsimp only
  split
  · next htag =>
    have hname := hs.worded htag rfl
    refine ensures_advance hs.toSteady fun s₁ h₁ => ?_
    refine ensures_makeNode_last h₁.sane fun id s₂ _ h₂ => ?_
    refine ⟨.name (Node.plain_identifier _ _) (.inl hname), (h₁.trans h₂).cast ?_⟩
    rw [(Node.plain_identifier _ _).trace rfl]
    rfl
  · next htag =>
    have hname := hs.worded htag rfl
    refine ensures_advance hs.toSteady fun s₁ h₁ => ?_
    refine ensures_warn h₁.sane fun s₂ _ h₂ => ?_
    refine ensures_makeNode_last h₂.sane fun id s₃ _ h₃ => ?_
    refine ⟨.name (Node.plain_identifier _ _) (.inr hname), (h₁.trans (h₂.trans h₃)).cast ?_⟩
    rw [(Node.plain_identifier _ _).trace rfl]
    rfl
  · next htag =>
    have hstring := hs.worded htag rfl
    refine ensures_advance hs.toSteady fun s₁ h₁ => ?_
    refine ensures_makeNode_last h₁.sane fun id s₂ _ h₂ => ?_
    refine ⟨.string (Node.plain_string _ _) hstring, (h₁.trans h₂).cast ?_⟩
    rw [(Node.plain_string _ _).trace rfl]
    rfl
  · next htag =>
    have hnumber := hs.worded htag rfl
    refine ensures_advance hs.toSteady fun s₁ h₁ => ?_
    refine ensures_makeNode_last h₁.sane fun id s₂ _ h₂ => ?_
    refine ⟨.number (Node.plain_number _ _) hnumber, (h₁.trans h₂).cast ?_⟩
    rw [(Node.plain_number _ _).trace rfl]
    rfl
  · exact ensures_fail

theorem objectProperty_passes (hg : Sound d g) {parts : List Tree} {s₀ : State}
    (h : Paired d s₀ parts s) : Ensures False (g.objectProperty parts) s
      (Turn.Leads (Paired d s₀) (Paired d s₀)) := by
  have hs := h.sane
  refine ensures_ifCheck (fun _ => ensures_pure h) fun _ => ?_
  refine (propertyKey_passes hs).bind fun key s₁ ⟨hkey, h₁⟩ => ?_
  refine ensures_expect h₁.sane fun s₂ _ h₂ => ?_
  refine (hg.assignment false s₂ h₂.sane).bind fun value s₃ ⟨hvalue, h₃⟩ => ?_
  have hpaired := h.snoc hkey hvalue ((h₁.trans h₂).cast (Trace.append_empty _)) h₃
  refine ensures_ifCheck (fun _ => ?_) fun _ => ?_
  · refine ensures_advance h₃.sane.toSteady fun s₄ h₄ => ?_
    refine ensures_ifCheck (fun _ => ?_) fun _ => ensures_pure (hpaired.step h₄)
    exact ensures_warn h₄.sane fun s₅ _ h₅ => ensures_pure ((hpaired.step h₄).step h₅)
  · exact ensures_ifCheck (fun _ => ensures_pure hpaired) fun _ => ensures_fail

theorem objectLiteral_reads (hg : Sound d g) : Reads d .expr false g.objectLiteral := by
  intro s hs
  refine ensures_advance hs.toSteady fun s₁ h₁ => ?_
  have hempty : Paired d s₁ [] s₁ := ⟨[], rfl, by simp, by simp, by simpa using Passed.refl h₁.sane⟩
  refine (ensures_iterate (fun _ _ => objectProperty_passes hg) _ hempty).bind
    fun parts s₂ ⟨pairs, hparts, hkeys, hvalues, hpassed⟩ => ?_
  subst hparts
  refine ensures_expect hpassed.sane fun s₃ _ h₃ => ?_
  refine ensures_makeNode_last h₃.sane fun id s₄ _ h₄ => ?_
  refine ⟨.object (Node.plain_leaf _ _) hkeys hvalues,
    ((h₁.trans hpassed).trans (h₃.trans h₄)).cast ?_⟩
  rw [(Node.plain_leaf _ _).trace_parts rfl rfl rfl]
  simp

/-! ## Blocks and functions -/

theorem Kept.ctx {s' : State} (h : Kept s s') : s'.ctx = s.ctx := by
  unfold State.ctx State.role
  rw [h.function?, h.targets, h.labels, h.pendingLabels]

theorem settle_eq (h : s.pendingLabels = []) : s.settle = s := by
  rw [State.settle, ← h]

/-- A statement of a list. -/
theorem listedStatement_passes (hg : Sound d g) {top : Bool} (hp : s.pendingLabels = []) {s' : State}
    (hk : Kept s s') (hs : Sane d s') : Ensures False (g.statement top) s' fun t s'' =>
      Formed d (.statement s.ctx top) t ∧ Passed d s' s'' (t.trace false) := by
  refine (hg.statement top s' hs).mono fun t s'' ⟨ht, hpassed, _⟩ => ?_
  rw [hk.ctx] at ht
  rw [settle_eq (hk.pendingLabels.trans hp)] at hpassed
  exact ⟨ht, hpassed⟩

theorem blockAfterBrace_passes (hg : Sound d g) {top : Bool} {line : Nat} {construct : String}
    (hs : Sane d s) (hp : s.pendingLabels = []) :
    Ensures False (g.blockAfterBrace top line construct) s fun t s' =>
      Formed d (.block s.ctx top) t ∧ Passed d s s' (t.trace false) := by
  refine ensures_freshId hs fun id s₁ _ _ _ h₁ => ?_
  refine (itemsUntil_passes [] h₁.sane fun s' _ hk hs' => listedStatement_passes hg
    (h₁.kept.pendingLabels.trans hp) hk hs').bind fun statements s₂ ⟨rest, hrest, h₂, _⟩ => ?_
  obtain rfl : statements = rest := by simpa using hrest
  refine ensures_takeComments h₂.passed.sane fun s₃ _ h₃ => ?_
  refine ensures_expect h₃.sane fun s₄ _ h₄ => ensures_pure ?_
  have hplain := Node.plain_leaf .block line
  obtain ⟨data, hnode, hcore, hleading, htrailing⟩ :=
    withComments_trailing s₂.comments id (.leaf .block line) statements hplain.trailing
  rw [hnode]
  rw [hplain.core] at hcore
  rw [hplain.leading] at hleading
  refine ⟨.block ⟨hcore, by simp [hleading], ?_⟩ hleading ?_, ?_⟩
  · rw [htrailing]
    exact h₂.passed.sane.comments
  · rw [← h₁.kept.ctx]
    exact h₂.all
  · refine ((h₁.trans h₂.passed).trans (h₃.trans h₄)).cast ?_
    rw [Tree.trace_quiet hcore rfl, hleading, htrailing]
    simp

theorem declaredName_passes (hs : Sane d s) {what : Expected} :
    Ensures False (declaredName what) s fun name s' =>
      Lexer.IsName d name.1 ∧ Passed d s s' {} := by
  refine ensures_get ?_
  dsimp only
  split
  · next htag =>
    refine ensures_advance hs.toSteady fun s₁ h₁ => ?_
    refine ensures_warnOfKeyword h₁.sane fun s₂ _ h₂ => ensures_pure ?_
    exact ⟨hs.worded htag rfl, (h₁.trans h₂).cast (Trace.append_empty _)⟩
  · exact ensures_fail
  · exact ensures_fail

theorem parameters_pass (hs : Sane d s) : Ensures False g.parameters s fun params s' =>
    (∀ name ∈ params, Lexer.IsName d name) ∧ Passed d s s' {} := by
  refine ensures_ifCheck (fun _ => ensures_pure ⟨by simp, .refl hs⟩) fun _ => ?_
  refine (itemsBetweenCommas_passes (T := fun _ => {}) hs fun s' _ hs' => ?_).mono
    fun params s' ⟨_, hlisted⟩ =>
      ⟨hlisted.all, hlisted.passed.cast (Trace.sum_empty params)⟩
  exact (declaredName_passes hs').bind fun name s₁ h₁ => ensures_pure h₁

theorem functionName_passes (hs : Sane d s) {role : FunctionRole} :
    Ensures False (functionName role) s fun name s' => (∀ n ∈ name, Lexer.IsName d n)
      ∧ (role = .expression ∨ name ≠ none) ∧ Passed d s s' {} := by
  refine ensures_get ?_
  dsimp only
  split
  · refine (declaredName_passes hs).bind fun name s₁ ⟨hname, h₁⟩ => ensures_pure ?_
    exact ⟨by simpa using hname, .inr (by simp), h₁⟩
  · split
    · next hrole => exact ensures_pure ⟨by simp, .inl (by simpa using hrole), .refl hs⟩
    · exact ensures_fail

/-- The body of a function is read in a scope of its own, whose needs stay in it. -/
theorem inFunction_passes {id : NodeId} {body : Reading α} {P : α → Prop} {trace : α → Trace}
    (hs : Sane d s)
    (hbody : ∀ s', Sane d s' → s'.ctx = .body → s'.pendingLabels = [] →
      Ensures False body s' fun a s'' => P a ∧ Passed d s' s'' (trace a)) :
    Ensures False (inFunction id body) s fun result s' =>
      P result.1 ∧ result.2.requiresActivation = (trace result.1).needs.activation
        ∧ result.2.checksThis = (trace result.1).needs.this
        ∧ Passed d s s' ⟨{}, (trace result.1).remarks⟩ := by
  refine ensures_get (ensures_set ?_)
  refine (hbody _ ?_ rfl rfl).bind fun a s₁ ⟨ha, h₁⟩ => ?_
  · exact ⟨⟨hs.dialect, hs.comments, hs.heard, by simp⟩, hs.current, hs.slash⟩
  refine ensures_get (ensures_modify (ensures_pure ⟨ha, ?_, ?_, ?_⟩))
  · simpa [State.needs, Needs.append_def] using congrArg Needs.activation h₁.needs
  · simpa [State.needs, Needs.append_def] using congrArg Needs.this h₁.needs
  · obtain ⟨more, hheard, hcomments⟩ := h₁.heard
    have hdialect : s₁.lexer.dialect = s.lexer.dialect := h₁.kept.dialect
    have hid : s.nextId ≤ s₁.nextId := h₁.kept.nextId
    refine ⟨⟨?_, hid⟩, ⟨⟨h₁.sane.dialect, h₁.sane.comments, h₁.sane.heard, ?_⟩, h₁.sane.current,
      h₁.sane.slash⟩, (Needs.append_empty s.needs).symm, more, hheard, hcomments⟩
    · simp only [State.frame, hdialect]
    · exact fun l hl => Nat.lt_of_lt_of_le (hs.labels l hl) hid

theorem functionOf_passes (hg : Sound d g) (role : FunctionRole) (hs : Sane d s) :
    Ensures False (g.functionOf role) s fun t s' =>
      (∃ id data f body, t = .node id data [body]
        ∧ data.Plain { tag := .kwFunction, payload := .function f } ∧ IsFunction d f role body
        ∧ Formed d (.block .body true) body) ∧ Passed d s s' (t.trace false) := by
  refine ensures_advance hs.toSteady fun s₁ h₁ => ?_
  refine (functionName_passes h₁.sane).bind fun name s₂ ⟨hname, hnamed, h₂⟩ => ?_
  refine ensures_expect h₂.sane fun s₃ _ h₃ => ?_
  refine (parameters_pass h₃.sane).bind fun params s₄ ⟨hparams, h₄⟩ => ?_
  refine ensures_expect h₄.sane fun s₅ _ h₅ => ?_
  refine ensures_expect h₅.sane fun s₆ _ h₆ => ?_
  refine ensures_freshId h₆.sane fun id s₇ _ _ _ h₇ => ensures_get ?_
  have hinner : ∀ s', Sane d s' → s'.ctx = .body → s'.pendingLabels = [] →
      Ensures False (g.blockAfterBrace true s₅.current.line "function") s' fun t s'' =>
        Formed d (.block .body true) t ∧ Passed d s' s'' (t.trace false) := by
    intro s' hs' hctx hp
    rw [← hctx]
    exact blockAfterBrace_passes hg hs' hp
  refine (inFunction_passes h₇.sane hinner).bind fun result s₈ ⟨hbody, hact, hthis, h₈⟩ => ?_
  obtain ⟨body, inner⟩ := result
  have hplain := Node.plain_functionNode { name, role, params } s.current.line
    s₇.scope.function? inner
  refine ensures_pure ⟨⟨id, _, _, body, rfl, hplain, ⟨rfl, hname, hnamed, hparams, hact, hthis⟩,
    hbody⟩, ?_⟩
  have hpassed := ((((h₁.trans h₂).trans h₃).trans h₄).trans ((h₅.trans h₆).trans h₇)).trans h₈
  refine hpassed.cast ?_
  rw [Tree.trace_function hplain.core, hplain.leading, hplain.trailing]
  simp [Tree.trace]

/-! ## Operands -/

/-- A slash is read again as a regular expression, from which the reading can go on. -/
theorem rescan_passes (hs : Sane d s) (hslash : s.current.isSlash = true) :
    Ensures False rescan s fun _ s' => s'.current.tag = .regExp
      ∧ Lexer.IsPattern d s'.current.shown.toList ∧ Steady d s'
      ∧ ∀ s'' trace, Passed d s' s'' trace → Passed d s s'' trace := by
  refine ensures_get ?_
  cases hrescan : s.lexer.rescan s.current with
  | mk result lexer =>
    cases result with
    | error e => exact ensures_fails rfl
    | ok t =>
      simp only [Lexer.rescan] at hrescan
      split at hrescan
      · cases hrescan
      next hdialect =>
      split at hrescan
      · cases hrescan
      next taken rest hscan =>
      obtain ⟨ht, rfl⟩ := Prod.mk.inj hrescan
      obtain rfl := Except.ok.inj ht
      have hreopen : Literal.regExp (s.current.reopen s.lexer.rest) = .token taken rest := hscan
      obtain ⟨hsplit, -, -, hall⟩ := Literal.regExp_token hreopen
      have hself := hall [] (Literal.ends_nil _)
      rw [List.append_nil] at hself
      have hne : taken ≠ [] := by
        rintro rfl
        cases hself
      have hpattern : Lexer.IsPattern d ('/' :: taken) := by
        refine ⟨?_, taken, rfl, fun c hc => hs.slash hslash c ?_, hself⟩
        · rw [← hs.dialect]
          simpa using hdialect
        · rw [hsplit]
          cases taken with
          | nil => exact absurd rfl hne
          | cons b taken => simpa using hc
      refine ⟨rfl, by simpa [Token.shown] using hpattern,
        ⟨hs.dialect, hs.comments, hs.heard, hs.labels⟩, fun s'' trace h => ?_⟩
      exact ⟨⟨h.kept.frame, h.kept.nextId⟩, h.sane, h.needs, h.heard⟩

theorem primary_reads (hg : Sound d g) : Reads d .expr false g.primary := by
  intro s hs
  refine ensures_get ?_
  dsimp only
  split
  · next hslash =>
    refine (rescan_passes hs hslash).bind fun _ s₁ ⟨htag, hpattern, hsteady, hback⟩ => ?_
    refine ensures_get ?_
    simp only [htag]
    refine ensures_advance hsteady fun s₂ h₂ => ?_
    refine ensures_makeNode_last h₂.sane fun id s₃ _ h₃ => ?_
    refine ⟨.leaf (Node.plain_regExp _ _) (.regExp hpattern), (hback s₃ _ (h₂.trans h₃)).cast ?_⟩
    rw [(Node.plain_regExp _ _).trace_quiet rfl]
    rfl
  refine ensures_get ?_
  split
  · exact arrayLiteral_reads hg s hs
  · exact objectLiteral_reads hg s hs
  · refine ensures_advance hs.toSteady fun s₁ h₁ => ?_
    refine (hg.expression false s₁ h₁.sane).bind fun t s₂ ⟨ht, h₂⟩ => ?_
    refine ensures_expect h₂.sane fun s₃ _ h₃ => ensures_pure ⟨ht, ?_⟩
    exact ((h₁.trans h₂).trans h₃).cast (by simp)
  · next htag =>
    refine ensures_advance hs.toSteady fun s₁ h₁ => ?_
    refine ensures_warnOfKeyword h₁.sane fun s₂ _ h₂ => ?_
    refine ensures_modifyScope h₂.sane ⟨s.current.shown == "arguments", false⟩ rfl
      (by simp [State.needs, Needs.append_def]) fun s₃ _ h₃ => ?_
    refine ensures_makeNode_last h₃.sane fun id s₄ _ h₄ => ?_
    refine ⟨.leaf (Node.plain_identifier _ _) (.name (hs.worded htag rfl)),
      ((h₁.trans h₂).trans (h₃.trans h₄)).cast ?_⟩
    rw [Tree.trace_name (Node.plain_identifier _ _)]
    simp
  · next htag =>
    refine ensures_advance hs.toSteady fun s₁ h₁ => ?_
    refine ensures_makeNode_last h₁.sane fun id s₂ _ h₂ => ?_
    refine ⟨.leaf (Node.plain_number _ _) (.number (hs.worded htag rfl)), (h₁.trans h₂).cast ?_⟩
    rw [(Node.plain_number _ _).trace_quiet rfl]
    rfl
  · next htag =>
    refine ensures_advance hs.toSteady fun s₁ h₁ => ?_
    refine ensures_makeNode_last h₁.sane fun id s₂ _ h₂ => ?_
    refine ⟨.leaf (Node.plain_string _ _) (.string (hs.worded htag rfl)), (h₁.trans h₂).cast ?_⟩
    rw [(Node.plain_string _ _).trace_quiet rfl]
    rfl
  · next htag =>
    have hnot : s.current.tag ≠ .regExp := by
      rcases hs.current with he | hgenuine
      · simp [he]
      · exact hgenuine.2.1
    exact absurd htag hnot
  · next htag =>
    obtain ⟨-, hsign⟩ := hs.sign htag rfl
    obtain ⟨value, hvalue⟩ : ∃ value, s.current.datum = some value := by
      have htidy := hsign.tidy
      simp only [Lexer.isTidy, Bool.and_eq_true, Option.isSome_iff_exists] at htidy
      exact htidy.1
    rw [hvalue] at hsign
    refine ensures_advance hs.toSteady fun s₁ h₁ => ?_
    simp only [hvalue, Option.getD_some]
    have hlast : ∀ s₂, Passed d s s₂ ⟨⟨false, value == .thisValue⟩, []⟩ →
        Ensures False (makeNode (.primary value s.current.line) []) s₂ fun t s' =>
          Formed d .expr t ∧ Passed d s s' (t.trace false) := by
      intro s₂ h₂
      refine ensures_makeNode_last h₂.sane fun id s₃ _ h₃ => ?_
      refine ⟨.leaf (Node.plain_primary _ _) (.primary hsign), (h₂.trans h₃).cast ?_⟩
      rw [(Node.plain_primary _ _).trace rfl]
      simp [Core.needs, Outline.callsEval, Needs.append_def]
    split
    · next hthis =>
      refine ensures_modifyScope h₁.sane ⟨false, true⟩ rfl
        (by simp [State.needs, Needs.append_def]) fun s₂ _ h₂ => hlast s₂ ?_
      rw [hthis]
      exact h₁.trans h₂
    · next hthis =>
      refine hlast s₁ ?_
      rw [Bool.not_eq_true] at hthis
      rw [hthis]
      exact h₁
  · exact ensures_fail
  · exact ensures_unexpected

theorem arguments_pass (hg : Sound d g) (hs : Sane d s) : Ensures False g.arguments s
    fun args s' => (∀ t ∈ args, Formed d .expr t)
      ∧ Passed d s s' (Trace.sum (args.map (Tree.trace false))) := by
  refine ensures_advance hs.toSteady fun s₁ h₁ => ?_
  refine ensures_ifCheck (fun _ => ?_) fun _ => ?_
  · refine ensures_let (ensures_expect h₁.sane fun s₂ _ h₂ => ensures_pure ⟨by simp, ?_⟩)
    exact h₁.trans h₂
  · refine (itemsBetweenCommas_passes h₁.sane fun s' _ hs' => hg.assignment false s' hs').bind
      fun args s₂ ⟨_, h₂⟩ => ?_
    refine ensures_expect h₂.passed.sane fun s₃ _ h₃ => ensures_pure ⟨h₂.all, ?_⟩
    exact ((h₁.trans h₂.passed).trans h₃).cast (by simp)

theorem propertyName_passes (hs : Sane d s) : Ensures False propertyName s fun name s' =>
    (Lexer.IsName d name ∨ Lexer.IsReserved d name) ∧ Passed d s s' {} := by
  refine ensures_get ?_
  dsimp only
  split
  · next htag =>
    exact ensures_advance hs.toSteady fun s₁ h₁ => ensures_pure ⟨.inl (hs.worded htag rfl), h₁⟩
  · next htag =>
    refine ensures_advance hs.toSteady fun s₁ h₁ => ?_
    refine ensures_warn h₁.sane fun s₂ _ h₂ => ensures_pure ⟨.inr (hs.worded htag rfl), ?_⟩
    exact h₁.trans h₂
  · exact ensures_fail

/-- An expression was read from a state on. -/
def ReadTo (d : Dialect) (s : State) (t : Tree) (s' : State) : Prop :=
  Formed d .expr t ∧ Passed d s s' (t.trace false)

theorem isEval_core (t : Tree) :
    t.outline.core.isEval = (t.data.calleeName? == some "eval") := by
  obtain ⟨id, data, children⟩ := t
  rw [Tree.outline_node]
  change data.core.isEval = _
  by_cases htag : data.tag = .identifier
  · cases hpayload : data.payload <;>
      simp [Core.isEval, Node.core, Node.calleeName?, Node.data?, Tree.data, Payload.text?, htag,
        hpayload]
  · simp [Core.isEval, Node.core, Node.calleeName?, Tree.data, htag]

theorem access_passes (hg : Sound d g) {allowCall : Bool} {object : Tree} {s₀ : State}
    (h : ReadTo d s₀ object s) : Ensures False (g.access allowCall object) s
      (Turn.Leads (ReadTo d s₀) (ReadTo d s₀)) := by
  obtain ⟨hobject, hpassed⟩ := h
  have hs := hpassed.sane
  refine ensures_get ?_
  dsimp only
  split
  · refine ensures_advance hs.toSteady fun s₁ h₁ => ?_
    refine (propertyName_passes h₁.sane).bind fun name s₂ hread => ?_
    obtain ⟨hname, h₂⟩ := hread
    refine ensures_makeNode h₂.sane fun id s₃ _ h₃ => ?_
    refine ensures_makeNode h₃.sane fun id' s₄ _ h₄ => ensures_pure ?_
    refine ⟨.property (Node.plain_leaf _ _) hobject (.mk (Node.plain_identifier _ _) hname),
      (((hpassed.trans h₁).trans h₂).trans (h₃.trans h₄)).cast ?_⟩
    have hname : (Tree.node id (.identifier name s.current.line) []).trace true = {} := by
      rw [(Node.plain_identifier _ _).trace rfl, Tree.traces_nil]
      rfl
    rw [(Node.plain_leaf _ _).trace_parts rfl rfl rfl]
    simp [Core.names, hname]
  · refine ensures_advance hs.toSteady fun s₁ h₁ => ?_
    refine (hg.expression false s₁ h₁.sane).bind fun index s₂ hread => ?_
    obtain ⟨hindex, h₂⟩ := hread
    refine ensures_expect h₂.sane fun s₃ _ h₃ => ?_
    refine ensures_makeNode h₃.sane fun id s₄ _ h₄ => ensures_pure ?_
    refine ⟨.index (Node.plain_leaf _ _) hobject hindex,
      (((hpassed.trans h₁).trans h₂).trans (h₃.trans h₄)).cast ?_⟩
    rw [(Node.plain_leaf _ _).trace_quiet rfl]
    simp [Trace.sum]
  · split
    · refine (arguments_pass hg hs).bind fun args s₁ hread => ?_
      obtain ⟨hargs, h₁⟩ := hread
      have hlast : ∀ s₂, Passed d s₀ s₂ (object.trace false
            ++ (Trace.sum (args.map (Tree.trace false))
              ++ ⟨⟨object.data.calleeName? == some "eval", false⟩, []⟩)) →
          Ensures False (makeNode (.call .call object.data s.current.line) (object :: args) >>=
            fun t => pure (Turn.again t)) s₂ (Turn.Leads (ReadTo d s₀) (ReadTo d s₀)) := by
        intro s₂ h₂
        refine ensures_makeNode h₂.sane fun id s₃ _ h₃ => ensures_pure ?_
        refine ⟨.call (Node.plain_call _ _ _) hobject hargs, (h₂.trans h₃).cast ?_⟩
        have hcall : Outline.callsEval { tag := .call } ((object :: args).map Tree.outline)
            = (object.data.calleeName? == some "eval") := by
          rw [← isEval_core]
          rfl
        rw [(Node.plain_call _ _ _).trace rfl, Tree.traces_cons,
          Tree.traces_eq_sum _ fun _ _ => rfl, hcall, Trace.append_empty, ← Trace.append_assoc,
          ← Trace.needs_comm]
        rfl
      split
      · next heval =>
        refine ensures_modifyScope h₁.sane ⟨true, false⟩ rfl
          (by simp [State.needs, Needs.append_def]) fun s₂ _ h₂ => hlast s₂ ?_
        rw [heval]
        exact (hpassed.trans (h₁.trans h₂))
      · next heval =>
        rw [Bool.not_eq_true] at heval
        refine hlast s₁ ((hpassed.trans h₁).cast ?_)
        rw [heval]
        exact congrArg _ (Trace.append_empty _).symm
    · exact ensures_pure ⟨hobject, hpassed⟩
  · exact ensures_pure ⟨hobject, hpassed⟩

theorem memberOf_reads (hg : Sound d g) (allowCall : Bool) :
    Reads d .expr false (g.memberOf allowCall) := by
  intro s hs
  have hloop : ∀ object s₁, ReadTo d s object s₁ →
      Ensures False (g.repeatTurns (g.access allowCall) object) s₁ (ReadTo d s) :=
    fun object s₁ h => ensures_iterate (fun _ _ => access_passes hg) _ h
  refine ensures_get ?_
  dsimp only
  split
  · refine ensures_advance hs.toSteady fun s₁ h₁ => ?_
    refine (hg.member false s₁ h₁.sane).bind fun callee s₂ hread => ?_
    obtain ⟨hcallee, h₂⟩ := hread
    have hnode : ∀ args s₃, (∀ t ∈ args, Formed d .expr t) →
        Passed d s₂ s₃ (Trace.sum (args.map (Tree.trace false))) →
        Ensures False (makeNode (.call .kwNew callee.data s.current.line) (callee :: args) >>=
          g.repeatTurns (g.access allowCall)) s₃ (ReadTo d s) := by
      intro args s₃ hargs h₃
      refine ensures_makeNode h₃.sane fun id s₄ _ h₄ => hloop _ s₄ ?_
      refine ⟨.construct (Node.plain_call _ _ _) hcallee hargs,
        ((h₁.trans h₂).trans (h₃.trans h₄)).cast ?_⟩
      rw [(Node.plain_call _ _ _).trace_quiet rfl]
      simp [Trace.sum]
    refine ensures_ifCheck (fun _ => ?_) fun _ => ?_
    · exact (arguments_pass hg h₂.sane).bind fun args s₃ h => hnode args s₃ h.1 h.2
    · exact ensures_let (hnode [] s₂ (by simp) (.refl h₂.sane))
  · split
    · refine (functionOf_passes hg .expression hs).bind fun t s₁ hread => hloop t s₁ ⟨?_, hread.2⟩
      obtain ⟨id, data, f, body, ht, hplain, hfunction, hbody⟩ := hread.1
      rw [ht]
      exact .function hplain hfunction hbody
    · exact (primary_reads hg s hs).bind fun t s₁ h₁ => hloop t s₁ h₁

/-! ## Operators -/

theorem step_tag {t : Token} (h : isStep t = true) : t.tag = .increment ∨ t.tag = .decrement := by
  simpa [isStep] using h

/-- A step before or after an operand that was read. -/
theorem step_formed {id : NodeId} {tag : Tag} {after : Bool} {line : Nat} {operand : Tree}
    (htag : tag = .increment ∨ tag = .decrement) (ha : operand.tag.isAssignable = true)
    (hoperand : Formed d .expr operand) :
    Formed d .expr (.node id (.step tag after line) [operand])
      ∧ (Tree.node id (.step tag after line) [operand]).trace false = operand.trace false := by
  refine ⟨.step (Node.plain_step _ _ _) htag ha hoperand, ?_⟩
  rw [(Node.plain_step _ _ _).trace_quiet (by rcases htag with rfl | rfl <;> rfl)]
  simp [Trace.sum]

theorem steppedOperand_reads (hg : Sound d g) : Reads d .expr false g.steppedOperand := by
  intro s hs
  refine (memberOf_reads hg true s hs).bind fun operand s₁ ⟨hoperand, h₁⟩ => ?_
  refine ensures_get ?_
  dsimp only
  split
  · next hstep =>
    rw [Bool.and_eq_true] at hstep
    split
    · next hassignable =>
      refine ensures_advance h₁.sane.toSteady fun s₂ h₂ => ?_
      refine ensures_makeNode_last h₂.sane fun id s₃ _ h₃ => ?_
      obtain ⟨hformed, htrace⟩ := step_formed (step_tag hstep.1) hassignable hoperand
      exact ⟨hformed, (h₁.trans (h₂.trans h₃)).cast (by rw [htrace]; simp)⟩
    · exact ensures_fail
  · exact ensures_pure ⟨hoperand, h₁⟩

/-- An operator that a sane state shows is one of the dialect. -/
theorem unary_sign (hs : Sane d s) {operator : Tag}
    (h : unaryOperator? s.current = some operator) : IsUnary d operator := by
  have htag : s.current.tag = .unary ∨ s.current.tag = .add ∨ s.current.tag = .sub := by
    unfold unaryOperator? at h
    split at h <;> simp_all
  have hsign : s.current.text = none ∧ Lexer.IsSign d s.current.tag s.current.datum := by
    rcases htag with htag | htag | htag
    all_goals
      rw [htag]
      exact hs.sign htag rfl
  refine ⟨s.current.tag, s.current.datum, hsign.2, ?_⟩
  rw [← h]
  rfl

theorem unaryOf_reads (hg : Sound d g) : Reads d .expr false g.unaryOf := by
  intro s hs
  refine ensures_get ?_
  dsimp only
  split
  · next operator hoperator =>
    refine ensures_advance hs.toSteady fun s₁ h₁ => ?_
    refine (hg.unary s₁ h₁.sane).bind fun operand s₂ ⟨hoperand, h₂⟩ => ?_
    refine ensures_makeNode_last h₂.sane fun id s₃ _ h₃ => ?_
    refine ⟨.unary (Node.plain_unary _ _) (unary_sign hs hoperator) hoperand,
      (h₁.trans (h₂.trans h₃)).cast ?_⟩
    rw [(Node.plain_unary _ _).trace_quiet rfl]
    simp [Trace.sum]
  · split
    · next hstep =>
      refine ensures_advance hs.toSteady fun s₁ h₁ => ?_
      refine (memberOf_reads hg true s₁ h₁.sane).bind fun operand s₂ ⟨hoperand, h₂⟩ => ?_
      split
      · next hassignable =>
        refine ensures_makeNode_last h₂.sane fun id s₃ _ h₃ => ?_
        obtain ⟨hformed, htrace⟩ := step_formed (step_tag hstep) hassignable hoperand
        exact ⟨hformed, (h₁.trans (h₂.trans h₃)).cast (by rw [htrace]; simp)⟩
      · exact ensures_failAt
    · exact steppedOperand_reads hg s hs

/-- The tags of a binary node have a level. -/
theorem binaryOperator_level {noIn : Bool} {t : Token} {tag : Tag} {datum : Option Tag}
    (h : binaryOperator? noIn t = some (tag, datum)) : ∃ level, tag.binaryPrecedence? = some level := by
  unfold binaryOperator? at h
  split at h
  · obtain ⟨rfl, -⟩ := Prod.mk.inj (Option.some.inj h)
    exact ⟨_, rfl⟩
  · split at h
    · cases h
    · obtain ⟨rfl, -⟩ := Prod.mk.inj (Option.some.inj h)
      exact ⟨_, rfl⟩
  · next htag =>
    obtain ⟨rfl, -⟩ := Prod.mk.inj (Option.some.inj h)
    rw [htag]
    exact ⟨_, rfl⟩
  · next htag =>
    obtain ⟨rfl, -⟩ := Prod.mk.inj (Option.some.inj h)
    rw [htag]
    exact ⟨_, rfl⟩
  · next htag =>
    obtain ⟨rfl, -⟩ := Prod.mk.inj (Option.some.inj h)
    rw [htag]
    exact ⟨_, rfl⟩
  · split at h
    · next hlevel =>
      obtain ⟨rfl, -⟩ := Prod.mk.inj (Option.some.inj h)
      exact Option.isSome_iff_exists.mp hlevel
    · cases h

theorem level_tag {tag : Tag} {datum : Option Tag} {level : Nat}
    (h : tag.binaryPrecedence? = some level) : Core.isQuiet { tag := tag, datum := datum } = true
      ∧ (isWorded tag || tag == .endOfInput) = false := by
  cases tag <;> first | exact ⟨rfl, rfl⟩ | cases h

theorem binary_sign (hs : Sane d s) {noIn : Bool} {tag : Tag} {datum : Option Tag}
    (h : binaryOperator? noIn s.current = some (tag, datum)) : IsBinary d tag datum := by
  have hsame : binaryOperator? false s.current = some (tag, datum) := by
    unfold binaryOperator? at h ⊢
    split at h
    · exact h
    · split at h
      · cases h
      · exact h
    all_goals exact h
  have htag : (isWorded s.current.tag || s.current.tag == .endOfInput) = false := by
    unfold binaryOperator? at h
    split at h
    · next htag => rw [htag]; rfl
    · next htag => rw [htag]; rfl
    · next htag => rw [htag]; rfl
    · next htag => rw [htag]; rfl
    · next htag => rw [htag]; rfl
    · split at h
      · next hlevel =>
        obtain ⟨level, hlevel⟩ := Option.isSome_iff_exists.mp hlevel
        exact (@level_tag _ none _ hlevel).2
      · cases h
  refine ⟨s.current.tag, s.current.datum, (hs.sign rfl htag).2, ?_⟩
  rw [← hsame]
  rfl

theorem binaryTurn_passes {noIn : Bool} {level : Nat} {operand : Reading Tree}
    (hoperand : Reads d .expr false operand) {left : Tree} {s₀ : State} (h : ReadTo d s₀ left s) :
    Ensures False (binaryTurn noIn level operand left) s
      (Turn.Leads (ReadTo d s₀) (ReadTo d s₀)) := by
  obtain ⟨hleft, hpassed⟩ := h
  refine ensures_get ?_
  split
  · next tag datum hoperator =>
    split
    · refine ensures_advance hpassed.sane.toSteady fun s₁ h₁ => ?_
      refine (hoperand s₁ h₁.sane).bind fun right s₂ ⟨hright, h₂⟩ => ?_
      refine ensures_makeNode h₂.sane fun id s₃ _ h₃ => ensures_pure ?_
      obtain ⟨level, hlevel⟩ := binaryOperator_level hoperator
      refine ⟨.binary (Node.plain_binary _ _ _ _ _) (binary_sign hpassed.sane hoperator) hleft
        hright, ((hpassed.trans h₁).trans (h₂.trans h₃)).cast ?_⟩
      rw [(Node.plain_binary _ _ _ _ _).trace_quiet (level_tag hlevel).1]
      simp [Trace.sum]
    · exact ensures_pure ⟨hleft, hpassed⟩
  · exact ensures_pure ⟨hleft, hpassed⟩

theorem binaryOf_reads (hg : Sound d g) (noIn : Bool) (levels : Nat) :
    Reads d .expr false (g.binaryOf noIn levels) := by
  induction levels with
  | zero => exact unaryOf_reads hg
  | succ levels ih =>
    intro s hs
    exact (ih s hs).bind fun left s₁ h₁ =>
      ensures_iterate (fun _ _ => binaryTurn_passes ih) _ h₁

theorem conditionalOf_reads (hg : Sound d g) (noIn : Bool) :
    Reads d .expr false (g.conditionalOf noIn) := by
  intro s hs
  refine (binaryOf_reads hg noIn _ s hs).bind fun test s₁ ⟨htest, h₁⟩ => ?_
  refine ensures_ifCheck (fun _ => ?_) fun _ => ensures_pure ⟨htest, h₁⟩
  refine ensures_advance h₁.sane.toSteady fun s₂ h₂ => ?_
  refine (hg.assignment false s₂ h₂.sane).bind fun yes s₃ ⟨hyes, h₃⟩ => ?_
  refine ensures_expect h₃.sane fun s₄ _ h₄ => ?_
  refine (hg.assignment noIn s₄ h₄.sane).bind fun no s₅ ⟨hno, h₅⟩ => ?_
  refine ensures_makeNode_last h₅.sane fun id s₆ _ h₆ => ?_
  refine ⟨.conditional (Node.plain_leaf _ _) htest hyes hno,
    (((h₁.trans h₂).trans h₃).trans ((h₄.trans h₅).trans h₆)).cast ?_⟩
  rw [(Node.plain_leaf _ _).trace_quiet rfl]
  simp [Trace.sum]

theorem assignmentOf_reads (hg : Sound d g) (noIn : Bool) :
    Reads d .expr false (g.assignmentOf noIn) := by
  intro s hs
  refine (conditionalOf_reads hg noIn s hs).bind fun target s₁ ⟨htarget, h₁⟩ => ?_
  refine ensures_check ?_
  split
  · next hassign =>
    split
    · next hassignable =>
      have htag : s₁.current.tag = .assign := by simpa using hassign
      refine ensures_advance h₁.sane.toSteady fun s₂ h₂ => ?_
      refine (hg.assignment noIn s₂ h₂.sane).bind fun value s₃ ⟨hvalue, h₃⟩ => ?_
      refine ensures_makeNode_last h₃.sane fun id s₄ _ h₄ => ?_
      refine ⟨.assign (Node.plain_assign _ _ _ _) (h₁.sane.sign htag rfl).2 hassignable htarget
        hvalue, ((h₁.trans h₂).trans (h₃.trans h₄)).cast ?_⟩
      rw [(Node.plain_assign _ _ _ _).trace_quiet rfl]
      simp [Trace.sum]
    · exact ensures_fail
  · exact ensures_pure ⟨htarget, h₁⟩

theorem sequenceTurn_passes {assignment : Reading Tree}
    (hassignment : Reads d .expr false assignment) {left : Tree} {s₀ : State}
    (h : ReadTo d s₀ left s) : Ensures False (sequenceTurn assignment left) s
      (Turn.Leads (ReadTo d s₀) (ReadTo d s₀)) := by
  obtain ⟨hleft, hpassed⟩ := h
  refine ensures_ifCheck (fun _ => ?_) fun _ => ensures_pure ⟨hleft, hpassed⟩
  refine ensures_advance hpassed.sane.toSteady fun s₁ h₁ => ?_
  refine (hassignment s₁ h₁.sane).bind fun right s₂ ⟨hright, h₂⟩ => ?_
  refine ensures_makeNode h₂.sane fun id s₃ _ h₃ => ensures_pure ?_
  refine ⟨.comma (Node.plain_leaf _ _) hleft hright,
    ((hpassed.trans h₁).trans (h₂.trans h₃)).cast ?_⟩
  rw [(Node.plain_leaf _ _).trace_quiet rfl]
  simp [Trace.sum]

theorem expressionOf_reads (hg : Sound d g) (noIn : Bool) :
    Reads d .expr false (g.expressionOf noIn) := by
  intro s hs
  exact (assignmentOf_reads hg noIn s hs).bind fun left s₁ h₁ =>
    ensures_iterate (fun _ _ => sequenceTurn_passes (assignmentOf_reads hg noIn)) _ h₁

end ScriptPress.Grammar
