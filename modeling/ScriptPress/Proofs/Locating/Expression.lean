import ScriptPress.Proofs.Locating.Course

/-! # The lines of expressions

The readers of expressions, one for each reader of the grammar.
-/
namespace ScriptPress
open Text (IsLine)

/-- A grammar whose readers for nested parts stay on the lines of a text. -/
structure Grammar.Locating (source : List Char) (first : Nat) (g : Grammar) : Prop where
  statement : ∀ top, Locates source first (Tree.Located source first) (g.statement top)
  assignment : ∀ noIn, Locates source first (Tree.Located source first) (g.assignment noIn)
  expression : ∀ noIn, Locates source first (Tree.Located source first) (g.expression noIn)
  unary : Locates source first (Tree.Located source first) g.unary
  member : ∀ allowCall, Locates source first (Tree.Located source first) (g.member allowCall)

/-- Trees whose nodes are all on lines of a text. -/
def AllLocated (source : List Char) (first : Nat) (ts : List Tree) : Prop :=
  ∀ t ∈ ts, t.Located source first

namespace AllLocated
variable {source : List Char} {first : Nat} {t : Tree} {ts us : List Tree}

theorem nil : AllLocated source first [] := by simp [AllLocated]

theorem cons (ht : t.Located source first) (hts : AllLocated source first ts) :
    AllLocated source first (t :: ts) := List.forall_mem_cons.mpr ⟨ht, hts⟩

theorem one (ht : t.Located source first) : AllLocated source first [t] := cons ht nil

theorem append (hts : AllLocated source first ts) (hus : AllLocated source first us) :
    AllLocated source first (ts ++ us) := List.forall_mem_append.mpr ⟨hts, hus⟩

end AllLocated

namespace Grammar
variable {source : List Char} {first : Nat} {α β : Type} {P : α → Prop} {Q : β → Prop}
  {g : Grammar} {item : Reading α}

/-! ## Loops -/

theorem locates_repeatTurns {step : α → Reading (Turn α β)}
    (h : ∀ a, P a → Locates source first (Turn.Gives P Q) (step a)) {a : α} (ha : P a) :
    Locates source first Q (g.repeatTurns step a) := locates_iterate h _ ha

theorem forall_concat {items : List α} {a : α} (h : ∀ b ∈ items, P b) (ha : P a) :
    ∀ b ∈ items ++ [a], P b := List.forall_mem_append.mpr ⟨h, List.forall_mem_singleton.mpr ha⟩

theorem locates_itemsBetweenCommas (hitem : Locates source first P item) :
    Locates source first (fun items => ∀ a ∈ items, P a) (g.itemsBetweenCommas item) := by
  refine locates_repeatTurns (P := fun items => ∀ a ∈ items, P a) (fun items h => ?_) (by simp)
  refine hitem.bind fun a ha => (locates_accept _).bind fun _ _ => ?_
  exact (locates_pure (forall_concat h ha)).ite (locates_pure (forall_concat h ha))

theorem locates_itemsUntil {ends : Token → Bool} (hitem : Locates source first P item)
    {front : List α} (hfront : ∀ a ∈ front, P a) :
    Locates source first (fun items => ∀ a ∈ items, P a) (g.itemsUntil ends item front) := by
  refine locates_repeatTurns (P := fun items => ∀ a ∈ items, P a) (fun items h => ?_) hfront
  refine locates_ask fun s hs => (locates_pure h).ite (hitem.bind fun a ha => ?_) s hs
  exact locates_pure (forall_concat h ha)

/-! ## Literals -/

/-- A node of one token. -/
theorem locates_leaf (data : Token → Node) (hdata : ∀ t : Token, (data t).line = t.line) :
    Locates source first (Tree.Located source first)
      (advance >>= fun t => makeNode (data t) []) :=
  locates_advance.bind fun t ht => locates_makeNode (hdata t ▸ ht) AllLocated.nil

variable (hg : g.Locating source first)
include hg

theorem locates_arrayElement {elements : List Tree} (h : AllLocated source first elements) :
    Locates source first (Turn.Gives (AllLocated source first) (AllLocated source first))
      (g.arrayElement elements) := by
  refine locates_ifCheck (locates_pure h) (locates_ifCheck ?_ ?_)
  · refine locates_advance.bind fun t ht => ?_
    exact (locates_makeNode ht AllLocated.nil).bind fun _ hhole =>
      locates_pure (h.append (.one hhole))
  · refine (hg.assignment false).bind fun element helement => ?_
    have hmore := h.append (.one helement)
    refine locates_ifCheck ?_ ?_
    · refine locates_advance.bind fun t ht => locates_ifCheck ?_ (locates_pure hmore)
      exact (locates_warn _ ht).bind fun _ _ => locates_pure hmore
    · exact locates_ifCheck (locates_pure hmore) (locates_fail _)

theorem locates_arrayLiteral :
    Locates source first (Tree.Located source first) g.arrayLiteral := by
  refine locates_advance.bind fun opening hline => ?_
  refine (locates_repeatTurns (fun _ => locates_arrayElement hg) AllLocated.nil).bind fun _ h => ?_
  exact (locates_expect _ _).bind fun _ _ => locates_makeNode hline h

omit hg in
theorem locates_propertyKey :
    Locates source first (Tree.Located source first) propertyKey := by
  refine locates_ask fun s hs => ?_
  dsimp only
  split
  · exact locates_leaf _ (fun _ => rfl) s hs
  · refine locates_advance.bind (fun t ht => ?_) s hs
    exact (locates_warn _ ht).bind fun _ _ => locates_makeNode ht AllLocated.nil
  · exact locates_leaf _ (fun _ => rfl) s hs
  · exact locates_leaf _ (fun _ => rfl) s hs
  · exact locates_fail _ s hs

theorem locates_objectProperty {parts : List Tree} (h : AllLocated source first parts) :
    Locates source first (Turn.Gives (AllLocated source first) (AllLocated source first))
      (g.objectProperty parts) := by
  refine locates_ifCheck (locates_pure h) (locates_propertyKey.bind fun key hkey => ?_)
  refine (locates_expect _ _).bind fun _ _ => (hg.assignment false).bind fun value hvalue => ?_
  have hmore := h.append (.cons hkey (.one hvalue))
  refine locates_ifCheck ?_ (locates_ifCheck (locates_pure hmore) (locates_fail _))
  refine locates_advance.bind fun t ht => locates_ifCheck ?_ (locates_pure hmore)
  exact (locates_warn _ ht).bind fun _ _ => locates_pure hmore

theorem locates_objectLiteral :
    Locates source first (Tree.Located source first) g.objectLiteral := by
  refine locates_advance.bind fun opening hline => ?_
  have hparts := locates_repeatTurns (g := g) (fun _ => locates_objectProperty hg) AllLocated.nil
  refine hparts.bind fun _ h => ?_
  exact (locates_expect _ _).bind fun _ _ => locates_makeNode hline h

/-! ## Functions -/

theorem locates_blockAfterBrace (top : Bool) {line : Nat} (hline : IsLine source first line)
    (construct : String) :
    Locates source first (Tree.Located source first) (g.blockAfterBrace top line construct) := by
  refine locates_freshId.bind fun _ _ => ?_
  refine (locates_itemsUntil (hg.statement top) AllLocated.nil).bind fun statements h => ?_
  refine locates_takeComments.bind fun _ _ => (locates_expect _ _).bind fun _ _ => ?_
  exact locates_pure (located_withComments (Tree.located_node.mpr ⟨hline, h⟩) _ _)

omit hg in
theorem locates_parameters : Locates source first (fun _ => True) g.parameters := by
  refine locates_ifCheck (locates_pure trivial) ?_
  intro s hs
  refine (locates_itemsBetweenCommas (P := fun _ => True) ?_ s hs).mono fun _ _ => trivial
  exact (locates_declaredName _).bind fun _ _ => locates_pure trivial

omit hg in
theorem locates_functionName (role : FunctionRole) :
    Locates source first (fun _ => True) (functionName role) := by
  refine locates_ask fun s hs => ?_
  refine Locates.ite ((locates_declaredName _).bind fun _ _ => locates_pure trivial) ?_ s hs
  exact (locates_pure trivial).ite (locates_fail _)

theorem locates_functionOf (role : FunctionRole) :
    Locates source first (Tree.Located source first) (g.functionOf role) := by
  refine locates_advance.bind fun opening hline => (locates_functionName role).bind fun _ _ => ?_
  refine (locates_expect _ _).bind fun _ _ => locates_parameters.bind fun _ _ => ?_
  refine (locates_expect _ _).bind fun _ _ => (locates_expect _ _).bind fun brace hbrace => ?_
  refine locates_freshId.bind fun _ _ => locates_ask fun s hs => ?_
  refine (locates_inFunction (locates_blockAfterBrace hg true hbrace "function")).bind
    (fun r hbody => ?_) s hs
  exact locates_pure (Tree.located_node.mpr ⟨hline, AllLocated.one hbody⟩)

/-! ## Operands -/

omit hg in
/-- What is read after a slash was read again, if it was one. -/
theorem locates_rescanned {f : PUnit → Reading Tree}
    (hf : Locates source first (Tree.Located source first) (f ⟨⟩)) (s : State)
    (hs : s.Located source first) : LocatesAt source first (Tree.Located source first) s
      (if s.current.isSlash = true then rescan >>= f else f ⟨⟩) :=
  .ite (fun hslash => (locatesAt_rescan hs hslash).bind fun _ _ => hf) (hf s hs)

theorem locates_primary : Locates source first (Tree.Located source first) g.primary := by
  refine locates_ask fun s hs => locates_rescanned ?_ s hs
  refine locates_ask fun t ht => ?_
  dsimp only
  split
  · exact locates_arrayLiteral hg t ht
  · exact locates_objectLiteral hg t ht
  · refine locates_advance.bind (fun _ _ => (hg.expression false).bind fun _ h => ?_) t ht
    exact (locates_expect _ _).bind fun _ _ => locates_pure h
  · refine locates_advance.bind (fun _ hline => ?_) t ht
    refine (locates_warnOfKeyword _ hline).bind fun _ _ => ?_
    exact (locates_modifyScope _).bind fun _ _ => locates_makeNode hline AllLocated.nil
  · exact locates_leaf _ (fun _ => rfl) t ht
  · exact locates_leaf _ (fun _ => rfl) t ht
  · exact locates_leaf _ (fun _ => rfl) t ht
  · refine locates_advance.bind (fun _ hline => ?_) t ht
    have hnode : ∀ datum, Locates source first (Tree.Located source first)
        (makeNode (.primary datum _) []) := fun _ => locates_makeNode hline AllLocated.nil
    exact ((locates_modifyScope _).bind fun _ _ => hnode _).ite (hnode _)
  · exact locates_fail _ t ht
  · exact locates_unexpected t ht

theorem locates_arguments : Locates source first (AllLocated source first) g.arguments := by
  have hclose : ∀ args, AllLocated source first args → Locates source first
      (AllLocated source first) (expect .rightParen .parenAfterArguments >>= fun _ => pure args) :=
    fun _ h => (locates_expect _ _).bind fun _ _ => locates_pure h
  refine locates_advance.bind fun _ _ => locates_ifCheck (hclose [] .nil) ?_
  exact (locates_itemsBetweenCommas (hg.assignment false)).bind hclose

omit hg in
theorem locates_propertyName : Locates source first (fun _ => True) propertyName := by
  refine locates_ask fun s hs => ?_
  dsimp only
  split
  · exact locates_advance.bind (fun _ _ => locates_pure trivial) s hs
  · refine locates_advance.bind (fun _ ht => ?_) s hs
    exact (locates_warn _ ht).bind fun _ _ => locates_pure trivial
  · exact locates_fail _ s hs

theorem locates_access (allowCall : Bool) {object : Tree} (h : object.Located source first) :
    Locates source first (Turn.Gives (Tree.Located source first) (Tree.Located source first))
      (g.access allowCall object) := by
  have hdone : Locates source first
      (Turn.Gives (Tree.Located source first) (Tree.Located source first))
      (pure (.done object) : Reading (Turn Tree Tree)) := locates_pure h
  refine locates_ask fun s hs => ?_
  dsimp only
  split
  · refine locates_advance.bind (fun t ht => locates_propertyName.bind fun _ _ => ?_) s hs
    refine (locates_makeNode ht AllLocated.nil).bind fun name hname => ?_
    exact (locates_makeNode ht (AllLocated.cons h (.one hname))).bind fun _ ht => locates_pure ht
  · refine locates_advance.bind (fun t ht => (hg.expression false).bind fun index hindex => ?_) s hs
    refine (locates_expect _ _).bind fun _ _ => ?_
    exact (locates_makeNode ht (AllLocated.cons h (.one hindex))).bind fun _ ht => locates_pure ht
  · refine Locates.ite ((locates_arguments hg).bind fun args hargs => ?_) hdone s hs
    have hcall : Locates source first
        (Turn.Gives (Tree.Located source first) (Tree.Located source first))
        (makeNode (.call .call object.data s.current.line) (object :: args) >>= fun node =>
          (pure (.again node) : Reading (Turn Tree Tree))) :=
      (locates_makeNode hs.line (AllLocated.cons h hargs)).bind fun _ ht => locates_pure ht
    exact ((locates_modifyScope _).bind fun _ _ => hcall).ite hcall
  · exact hdone s hs

theorem locates_memberOf (allowCall : Bool) :
    Locates source first (Tree.Located source first) (g.memberOf allowCall) := by
  have hloop : ∀ object : Tree, object.Located source first → Locates source first
      (Tree.Located source first) (g.repeatTurns (g.access allowCall) object) :=
    fun _ => locates_repeatTurns fun _ => locates_access hg allowCall
  refine locates_ask fun s hs => ?_
  dsimp only
  refine Locates.ite ?_ (((locates_functionOf hg .expression).bind hloop).ite
    ((locates_primary hg).bind hloop)) s hs
  refine locates_advance.bind fun t ht => (hg.member false).bind fun callee hcallee => ?_
  have hnew : ∀ args, AllLocated source first args → Locates source first
      (Tree.Located source first) (makeNode (.call .kwNew callee.data t.line) (callee :: args)
        >>= g.repeatTurns (g.access allowCall)) :=
    fun _ hargs => (locates_makeNode ht (AllLocated.cons hcallee hargs)).bind hloop
  exact locates_ifCheck ((locates_arguments hg).bind hnew) (hnew [] .nil)

/-! ## Operators -/

theorem locates_steppedOperand :
    Locates source first (Tree.Located source first) g.steppedOperand := by
  refine (locates_memberOf hg true).bind fun operand h => locates_ask fun s hs => ?_
  refine Locates.ite (Locates.ite ?_ (locates_fail _)) (locates_pure h) s hs
  exact locates_advance.bind fun _ ht => locates_makeNode ht (AllLocated.one h)

theorem locates_unaryOf : Locates source first (Tree.Located source first) g.unaryOf := by
  refine locates_ask fun s hs => ?_
  dsimp only
  split
  · refine locates_advance.bind (fun _ _ => hg.unary.bind fun operand h => ?_) s hs
    exact locates_makeNode hs.line (AllLocated.one h)
  · refine Locates.ite (locates_advance.bind fun _ _ => ?_) (locates_steppedOperand hg) s hs
    refine (locates_memberOf hg true).bind fun operand h => ?_
    exact (locates_makeNode hs.line (AllLocated.one h)).ite (locates_failAt _ hs.line)

omit hg in
theorem locates_binaryTurn (noIn : Bool) (level : Nat) {operand : Reading Tree}
    (ho : Locates source first (Tree.Located source first) operand) {left : Tree}
    (h : left.Located source first) :
    Locates source first (Turn.Gives (Tree.Located source first) (Tree.Located source first))
      (binaryTurn noIn level operand left) := by
  have hdone : Locates source first
      (Turn.Gives (Tree.Located source first) (Tree.Located source first))
      (pure (.done left) : Reading (Turn Tree Tree)) := locates_pure h
  refine locates_ask fun s hs => ?_
  split
  · refine Locates.ite (locates_advance.bind fun t ht => ho.bind fun right hright => ?_) hdone s hs
    exact (locates_makeNode ht (AllLocated.cons h (.one hright))).bind fun _ ht => locates_pure ht
  · exact hdone s hs

theorem locates_binaryOf (noIn : Bool) (levels : Nat) :
    Locates source first (Tree.Located source first) (g.binaryOf noIn levels) := by
  induction levels with
  | zero => exact locates_unaryOf hg
  | succ levels ih =>
    exact ih.bind fun _ => locates_repeatTurns fun _ => locates_binaryTurn noIn _ ih

theorem locates_conditionalOf (noIn : Bool) :
    Locates source first (Tree.Located source first) (g.conditionalOf noIn) := by
  refine (locates_binaryOf hg noIn binaryLevels).bind fun condition h => ?_
  refine locates_ifCheck (locates_advance.bind fun t ht => ?_) (locates_pure h)
  refine (hg.assignment false).bind fun yes hyes => (locates_expect _ _).bind fun _ _ => ?_
  refine (hg.assignment noIn).bind fun no hno => ?_
  exact locates_makeNode ht (AllLocated.cons h (.cons hyes (.one hno)))

theorem locates_assignmentOf (noIn : Bool) :
    Locates source first (Tree.Located source first) (g.assignmentOf noIn) := by
  refine (locates_conditionalOf hg noIn).bind fun target h => ?_
  refine locates_ifCheck (Locates.ite ?_ (locates_fail _)) (locates_pure h)
  refine locates_advance.bind fun t ht => (hg.assignment noIn).bind fun value hvalue => ?_
  exact locates_makeNode ht (AllLocated.cons h (.one hvalue))

omit hg in
theorem locates_sequenceTurn {assignment : Reading Tree}
    (ha : Locates source first (Tree.Located source first) assignment) {left : Tree}
    (h : left.Located source first) :
    Locates source first (Turn.Gives (Tree.Located source first) (Tree.Located source first))
      (sequenceTurn assignment left) := by
  refine locates_ifCheck (locates_advance.bind fun t ht => ha.bind fun right hright => ?_)
    (locates_pure h)
  exact (locates_makeNode ht (AllLocated.cons h (.one hright))).bind fun _ ht => locates_pure ht

theorem locates_expressionOf (noIn : Bool) :
    Locates source first (Tree.Located source first) (g.expressionOf noIn) := by
  have hassignment := locates_assignmentOf hg noIn
  exact hassignment.bind fun _ => locates_repeatTurns fun _ => locates_sequenceTurn hassignment

end Grammar
end ScriptPress
