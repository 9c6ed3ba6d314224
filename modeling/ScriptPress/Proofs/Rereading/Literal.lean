import ScriptPress.Proofs.Rereading.Access

/-! # Reading arrays and objects again

The elements of an array are read up to its bracket: a hole takes its comma, and an expression the
comma behind it if another element follows, so that no comma is taken for one too many. An object
is read in pairs of a key and a value; keys keep their text.
-/
namespace ScriptPress.Grammar
open Lexer Render

section
variable {x : Tape} {s₀ : State} {id : NodeId} {data : Node} {t : Tree} {parts done : List Tree}
  {more zs : List WriterStep}

/-! ## Arrays -/

/-- An element is a hole or an expression. -/
theorem element_cases {d : Dialect} (h : Formed d .element t) :
    (∃ id data, t = .node id data [] ∧ data.Plain { tag := .empty })
      ∨ (t.tag ≠ .empty ∧ Formed d .expr t) := by
  cases h with
  | hole hdata => exact .inl ⟨_, _, rfl, hdata⟩
  | element ht => exact .inr ⟨ht.expr_tag.1, ht⟩

/-- An element that was read again. -/
def Tape.Recasts (x : Tape) (t t' : Tree) : Prop :=
  x.Regains t t' ∧ (t.tag ≠ .empty → x.Redraws t t')

/-- What stands behind an element that is an expression. -/
def behindElement (o : RenderOptions) (rest : List Tree) (zs : List WriterStep) : List WriterStep :=
  (if rest.isEmpty then [] else [.token ","])
    ++ (if rest.head?.any (·.tag != .empty) then [.space] else []) ++ elementsAt o rest ++ zs

theorem elementsAt_expr {o : RenderOptions} (rest : List Tree) (ht : t.tag ≠ .empty) :
    elementsAt o (t :: rest) ++ zs
      = exprAt o t { use := .operand Precedence.assignment } ++ behindElement o rest zs := by
  simp [elementsAt, behindElement, ht]

theorem words_behindElement (x : Tape) (rest : List Tree) :
    x.words false false (behindElement x.o rest zs)
      = if rest.isEmpty then x.words false false zs
        else ⟨⟨.comma, none, none⟩, false⟩ :: x.words false false (elementsAt x.o rest ++ zs) := by
  cases rest with
  | nil => rfl
  | cons e rest =>
    have hcomma := x.words_text (b := false) "," .comma (by decide) rfl
    by_cases he : e.tag = .empty
    · simp [behindElement, he, hcomma]
    · simp [behindElement, he, hcomma, x.words_space]

theorem words_hole (x : Tape) (rest : List Tree) (ht : t.tag = .empty) :
    x.words false false (elementsAt x.o (t :: rest) ++ zs)
      = ⟨⟨.comma, none, none⟩, false⟩ :: x.words false false (elementsAt x.o rest ++ zs) := by
  have hcomma := x.words_text (b := false) "," .comma (by decide) rfl
  by_cases he : rest.head?.any (·.tag != .empty) = true
  · simp [elementsAt, ht, he, hcomma, x.words_space]
  · simp [elementsAt, ht, he, hcomma]

/-- Elements do not begin with the bracket that closes an array. -/
theorem elements_head (rest : List Tree) (h : Formed x.dialect .element t) :
    ∀ w ∈ (x.words false false (elementsAt x.o (t :: rest) ++ zs)).head?,
      w.sym.tag ≠ .rightBracket := by
  rcases element_cases h with ⟨id, data, rfl, hdata⟩ | ⟨ht, hformed⟩
  · have htag : (Tree.node id data []).tag = .empty := congrArg Core.tag hdata.core
    rw [words_hole x rest htag]
    rintro w ⟨rfl⟩
    simp
  · rw [elementsAt_expr rest ht]
    exact expr_head hformed _ (by decide)

/-- A turn that takes a hole with its comma. -/
theorem hole_turn {n : Nat} {items : List Tree} {s : State} {ws : List Word}
    (ht : t.tag = .empty) (hregains : ∀ id' line, x.Regains t (.node id' (.leaf .empty line) []))
    (hitems : List.Forall₂ x.Recasts done items)
    (hfed : Fed x s₀ (⟨⟨.comma, none, none⟩, false⟩ :: ws) s) :
    Ensures True ((nested n).arrayElement items) s fun turn s' => ∃ items', turn = .again items'
      ∧ List.Forall₂ x.Recasts (done ++ [t]) items' ∧ Fed x s₀ ws s' := by
  have hcurrent : s.current.tag = .comma := hfed.tag_eq (by simp)
  refine ensures_ifCheck (fun heq => by rw [hcurrent] at heq; cases heq) fun _ => ?_
  refine ensures_ifCheck (fun _ => ?_) fun hne => absurd hcurrent hne
  refine hfed.advance (by simp) fun s₁ hs₁ => ?_
  refine hs₁.makeNode fun id' s₂ _ hs₂ => ensures_pure ⟨_, rfl, forall₂_snoc hitems ?_, hs₂⟩
  exact ⟨hregains id' _, fun hne => absurd ht hne⟩

/-- A turn that takes an expression, and the comma behind it if another element follows. -/
theorem value_turn {n : Nat} {items rest : List Tree} {s : State} (hexpr : Formed x.dialect .expr t)
    (hrest : ∀ u ∈ rest, Formed x.dialect .element u)
    (hread : Takes x s₀ n ((nested n).assignment false)
      (x.words false false (exprAt x.o t { use := .operand Precedence.assignment }
        ++ behindElement x.o rest (.token "]" :: more))) (x.Redraws t)
      (x.words false false (behindElement x.o rest (.token "]" :: more))))
    (hitems : List.Forall₂ x.Recasts done items)
    (hn : (x.words false false (exprAt x.o t { use := .operand Precedence.assignment }
        ++ behindElement x.o rest (.token "]" :: more))).length < n)
    (hfed : Fed x s₀ (x.words false false (exprAt x.o t { use := .operand Precedence.assignment }
        ++ behindElement x.o rest (.token "]" :: more))) s) :
    Ensures True ((nested n).arrayElement items) s fun turn s' => ∃ items', turn = .again items'
      ∧ List.Forall₂ x.Recasts (done ++ [t]) items'
      ∧ Fed x s₀ (x.words false false (elementsAt x.o rest ++ .token "]" :: more)) s' := by
  have hbracket : s.current.tag ≠ .rightBracket :=
    hfed.head_ne (expr_head hexpr _ (by decide)) (by decide)
  have hcomma : s.current.tag ≠ .comma := hfed.head_ne (expr_head hexpr _ (by decide)) (by decide)
  refine ensures_ifCheck (fun heq => absurd heq hbracket) fun _ => ?_
  refine ensures_ifCheck (fun heq => absurd heq hcomma) fun _ => ?_
  refine hread.bind hn hfed fun t' s₁ ht' hs₁ => ?_
  have hadded := forall₂_snoc hitems (⟨ht'.toRegains, fun _ => ht'⟩ : x.Recasts t t')
  rw [words_behindElement] at hs₁
  cases rest with
  | nil =>
    change Fed x s₀ (x.words false false (.token "]" :: more)) s₁ at hs₁
    have hcurrent : s₁.current.tag = .rightBracket := by
      have hfaces := hs₁
      rw [x.words_text "]" .rightBracket (by decide) rfl] at hfaces
      exact hfaces.tag_eq (by simp)
    refine ensures_ifCheck (fun heq => by rw [hcurrent] at heq; cases heq) fun _ => ?_
    refine ensures_ifCheck (fun _ => ?_) fun hne => absurd hcurrent hne
    exact ensures_pure ⟨_, rfl, hadded, hs₁⟩
  | cons e rest =>
    rw [List.isEmpty_cons, if_neg Bool.false_ne_true] at hs₁
    have hcurrent : s₁.current.tag = .comma := hs₁.tag_eq (by simp)
    refine ensures_ifCheck (fun _ => ?_) fun hne => absurd hcurrent hne
    refine hs₁.advance (by simp) fun s₂ hs₂ => ?_
    have hnext : s₂.current.tag ≠ .rightBracket :=
      hs₂.head_ne (elements_head rest (hrest e (by simp))) (by decide)
    refine ensures_ifCheck (fun heq => absurd heq hnext) fun _ => ?_
    exact ensures_pure ⟨_, rfl, hadded, hs₂⟩

theorem collects_elements {n : Nat} (hformed : ∀ t ∈ parts, Formed x.dialect .element t)
    (hall : ∀ t ∈ parts, t.tag ≠ .empty → ExprYields x t) :
    Collects x s₀ n (nested n).arrayElement
      (x.words false false (elementsAt x.o parts ++ .token "]" :: more))
      (List.Forall₂ x.Recasts done) (List.Forall₂ x.Recasts (done ++ parts))
      (x.words false false (.token "]" :: more)) := by
  have hclose : x.words false false (.token "]" :: more)
      = ⟨⟨.rightBracket, none, none⟩, false⟩ :: x.words false false more :=
    x.words_text "]" .rightBracket (by decide) rfl more
  induction parts generalizing done with
  | nil =>
    refine .finish fun s items _ hitems hfed => ?_
    rw [List.append_nil]
    refine ensures_ifCheck (fun _ => ensures_pure ⟨items, rfl, hitems, hfed⟩) fun hne => absurd ?_ hne
    have hfaces := hfed
    change Fed x s₀ (x.words false false (.token "]" :: more)) s at hfaces
    rw [hclose] at hfaces
    exact hfaces.tag_eq (by simp)
  | cons t rest ih =>
    have hformed' : ∀ u ∈ rest, Formed x.dialect .element u := fun u hu =>
      hformed u (List.mem_cons_of_mem t hu)
    have hrest := @ih (done ++ [t]) hformed' fun u hu => hall u (List.mem_cons_of_mem t hu)
    rw [List.append_cons done t]
    rcases element_cases (hformed t (by simp)) with ⟨id, data, rfl, hdata⟩ | ⟨ht, hexpr⟩
    · have htag : (Tree.node id data []).tag = .empty := congrArg Core.tag hdata.core
      rw [words_hole x rest htag]
      refine hrest.turn (Nat.lt_succ_self _) fun s items hn hitems hfed => ?_
      refine hole_turn htag (fun id' line => ?_) hitems hfed
      exact regains_node hdata (Node.plain_leaf .empty line) (by simp) .nil
    · have hstop : Stops Precedence.assignment false
          (x.words false false (behindElement x.o rest (.token "]" :: more))) := by
        rw [words_behindElement]
        split
        · rw [hclose]
          exact stops_closer (by decide)
        · exact stops_sign (fun _ => rfl) (by decide)
      have hvalue := (hall t (by simp) ht).operand s₀ false
        { use := .operand Precedence.assignment } false _ rfl (by decide) (fun h => nomatch h) hstop
      have hlt := hvalue.shorter
      have hle : (x.words false false (elementsAt x.o rest ++ .token "]" :: more)).length
          ≤ (x.words false false (behindElement x.o rest (.token "]" :: more))).length := by
        rw [words_behindElement]
        split
        · next hempty =>
          rw [List.isEmpty_iff.mp hempty]
          exact Nat.le_refl _
        · exact Nat.le_succ _
      rw [elementsAt_expr rest ht]
      refine hrest.turn (by omega) fun s items hn hitems hfed => ?_
      exact value_turn hexpr hformed' (Yields.inner hvalue (nests_assignment false) n) hitems hn hfed

theorem array_yields (h : data.Plain { tag := .arrayLit })
    (hformed : ∀ t ∈ parts, Formed x.dialect .element t)
    (hall : ∀ t ∈ parts, t.tag ≠ .empty → ExprYields x t) : BareYields x (.node id data parts) := by
  have htag : data.tag = .arrayLit := congrArg Core.tag h.core
  refine .of_primary .leftBracket (precedence_tight htag (by decide)) (by simp)
    fun {s₀ place b more} => ⟨⟨⟨.leftBracket, none, none⟩, b⟩,
      x.words false false (elementsAt x.o parts ++ .token "]" :: more), ?_, rfl, ?_⟩
  · rw [bareAt_array h.core, arraySteps_eq, List.append_assoc, List.cons_append,
      x.words_text "[" .leftBracket (by decide) rfl]
    rfl
  have hclose : x.words false false (.token "]" :: more)
      = ⟨⟨.rightBracket, none, none⟩, false⟩ :: x.words false false more :=
    x.words_text "]" .rightBracket (by decide) rfl more
  have hlt := x.length_words_behind false false (elementsAt x.o parts) (.token "]" :: more)
  refine ⟨?_, fun n s hn hfed => ensures_get ?_⟩
  · change (x.words false false (.token "]" :: more)).length ≤ (x.words false false _).length at hlt
    rw [hclose] at hlt
    exact Nat.lt_of_lt_of_le (Nat.lt_succ_self _) (Nat.le_succ_of_le hlt)
  have hcurrent : s.current.tag = .leftBracket := hfed.tag_eq (by simp)
  rw [if_neg (by simp [Token.isSlash, hcurrent])]
  refine ensures_get ?_
  simp only [hcurrent]
  refine hfed.advance (by simp) fun s₁ hs₁ => ?_
  have hitems : Collects x s₀ n (nested n).arrayElement _ (List.Forall₂ x.Recasts [])
      (List.Forall₂ x.Recasts ([] ++ parts)) (x.words false false (.token "]" :: more)) :=
    collects_elements hformed hall
  refine (hitems.repeatTurns hn .nil hs₁).bind fun parts' s₂ hread => ?_
  obtain ⟨hparts, hs₂⟩ := hread
  rw [hclose] at hs₂
  refine hs₂.expect rfl (by decide) fun s₃ hs₃ => ?_
  refine hs₃.makeNode_last fun id' s₄ hs₄ => ⟨?_, hs₄⟩
  have hplain := Node.plain_leaf .arrayLit s.current.line
  refine redraws_node h hplain (by simp) (hparts.imp fun _ _ h => h.1) fun o ho place => ?_
  rw [bareAt_array h.core, bareAt_array hplain.core, arraySteps_eq, arraySteps_eq]
  refine .cons _ ((elementsAt_same (hparts.flip.imp fun u t ht => ?_)).behind _)
  have hsame : u.tag = t.tag := ht.1.echo.tag
  exact ⟨hsame, fun hne place => (ht.2 (by rwa [hsame] at hne)).drawn o ho place⟩

/-! ## Objects -/

/-- A key that was read again: it is the same, and has no comments. -/
structure KeyAgain (key key' : Tree) : Prop where
  sketch : key'.sketch = key.sketch
  bare : key.remarks = [] ∧ key'.remarks = []
  text : ∀ o, (part o key').text = (part o key).text

theorem keyAgain {core : Core} {name : String} (h : data.Plain core)
    (hname : core.payload.text? = some name) {id' : NodeId} {data' : Node} (h' : data'.Plain core) :
    KeyAgain (.node id data []) (.node id' data' []) where
  sketch := by rw [Tree.sketch_node, Tree.sketch_node, h.core, h'.core]
  bare := ⟨remarks_plain h, remarks_plain h'⟩
  text o := by rw [part_text h.core hname, part_text h'.core hname]

/-- A key is one token, and is read as a node of its sort. -/
theorem key_reads (s₀ : State) {key : Tree} (hkey : IsKey x.dialect key) : ∃ sym : Sym,
    (∀ b : Bool, ∀ zs, x.words b false (.token (part x.o key).text :: zs)
      = ⟨sym, b⟩ :: x.words false false zs)
    ∧ sym.tag ≠ .rightBrace
    ∧ ∀ {ws : List Word} {s : State} {b : Bool} {f : Tree → Reading (Turn (List Tree) (List Tree))}
        {Q : Turn (List Tree) (List Tree) → State → Prop}, Fed x s₀ (⟨sym, b⟩ :: ws) s →
      (∀ key' s', KeyAgain key key' → Fed x s₀ ws s' → Ensures True (f key') s' Q) →
      Ensures True (propertyKey >>= f) s Q := by
  cases hkey with
  | @name id data name hdata hok =>
    obtain ⟨tag, hworded, hlexeme⟩ : ∃ tag, (tag = .identifier ∨ tag = .reserved)
        ∧ IsLexeme x.dialect name.toList ⟨tag, none, some name⟩ :=
      hok.elim (fun h => ⟨_, .inl rfl, h⟩) fun h => ⟨_, .inr rfl, h⟩
    have hr : tag ≠ .regExp := by rcases hworded with rfl | rfl <;> simp
    refine ⟨⟨tag, none, some name⟩, fun b zs => ?_, ?_, ?_⟩
    · rw [part_text hdata.core rfl, x.words_lexeme hlexeme]
    · rcases hworded with rfl | rfl <;> simp
    intro ws s b f Q hs hf
    have hsym : s.current.sym = ⟨tag, none, some name⟩ := hs.sym hr
    have hcurrent : s.current.tag = tag := congrArg Sym.tag hsym
    have hplain := Node.plain_identifier name s.current.line
    refine Ensures.bind (P := fun key' s' => KeyAgain (.node id data []) key' ∧ Fed x s₀ ws s') ?_
      fun key' s' hread => hf key' s' hread.1 hread.2
    refine ensures_get ?_
    rcases hworded with rfl | rfl
    · simp only [hcurrent]
      refine hs.advance hr fun s₁ hs₁ => ?_
      refine hs₁.makeNode_last fun id' s₂ hs₂ => ⟨?_, hs₂⟩
      rw [shown_eq hsym]
      exact keyAgain hdata rfl hplain
    · simp only [hcurrent]
      refine hs.advance hr fun s₁ hs₁ => hs₁.warn fun s₂ hs₂ => ?_
      refine hs₂.makeNode_last fun id' s₃ hs₃ => ⟨?_, hs₃⟩
      rw [shown_eq hsym]
      exact keyAgain hdata rfl hplain
  | @string id data text hdata hlexeme =>
    refine ⟨⟨.string, none, some text⟩, fun b zs => ?_, by simp, ?_⟩
    · rw [part_text hdata.core rfl, x.words_lexeme hlexeme]
    intro ws s b f Q hs hf
    have hsym : s.current.sym = ⟨.string, none, some text⟩ := hs.sym (by simp)
    have hcurrent : s.current.tag = .string := congrArg Sym.tag hsym
    refine Ensures.bind (P := fun key' s' => KeyAgain (.node id data []) key' ∧ Fed x s₀ ws s') ?_
      fun key' s' hread => hf key' s' hread.1 hread.2
    refine ensures_get ?_
    simp only [hcurrent]
    refine hs.advance (by simp) fun s₁ hs₁ => ?_
    refine hs₁.makeNode_last fun id' s₂ hs₂ => ⟨?_, hs₂⟩
    rw [shown_eq hsym]
    exact keyAgain hdata rfl (Node.plain_string text s.current.line)
  | @number id data text hdata hlexeme =>
    refine ⟨⟨.number, none, some text⟩, fun b zs => ?_, by simp, ?_⟩
    · rw [part_text hdata.core rfl, x.words_lexeme hlexeme]
    intro ws s b f Q hs hf
    have hsym : s.current.sym = ⟨.number, none, some text⟩ := hs.sym (by simp)
    have hcurrent : s.current.tag = .number := congrArg Sym.tag hsym
    refine Ensures.bind (P := fun key' s' => KeyAgain (.node id data []) key' ∧ Fed x s₀ ws s') ?_
      fun key' s' hread => hf key' s' hread.1 hread.2
    refine ensures_get ?_
    simp only [hcurrent]
    refine hs.advance (by simp) fun s₁ hs₁ => ?_
    refine hs₁.makeNode_last fun id' s₂ hs₂ => ⟨?_, hs₂⟩
    rw [shown_eq hsym]
    exact keyAgain hdata rfl (Node.plain_number text s.current.line)

/-- A pair that was read again. -/
def Tape.Repairs (x : Tape) (p p' : Tree × Tree) : Prop :=
  KeyAgain p.1 p'.1 ∧ x.Redraws p.2 p'.2

/-- The parts of an object that were read, in pairs. -/
def PairsAgain (x : Tape) (pairs : List (Tree × Tree)) (items : List Tree) : Prop :=
  ∃ pairs', items = Tree.flatPairs pairs' ∧ List.Forall₂ x.Repairs pairs pairs'

theorem PairsAgain.snoc {pairs : List (Tree × Tree)} {items : List Tree} {p p' : Tree × Tree}
    (h : PairsAgain x pairs items) (hp : x.Repairs p p') :
    PairsAgain x (pairs ++ [p]) (items ++ [p'.1, p'.2]) := by
  obtain ⟨pairs', rfl, hall⟩ := h
  exact ⟨pairs' ++ [p'], by simp [Tree.flatPairs], forall₂_snoc hall hp⟩

theorem echoParts_pairs {compact : Bool} {core : Core} (h : core.tag = .objectLit) (index : Nat)
    (heven : index % 2 = 0) (pairs : List (Tree × Tree)) :
    Outline.echoParts compact core index ((Tree.flatPairs pairs).map Tree.sketch)
      = pairs.flatMap fun p => [p.1.sketch, p.2.sketch.echo compact] := by
  induction pairs generalizing index with
  | nil => rw [Tree.flatPairs, List.flatMap_nil, List.map_nil, Outline.echoParts, List.flatMap_nil]
  | cons p pairs ih =>
    have hcons : Tree.flatPairs (p :: pairs) = p.1 :: p.2 :: Tree.flatPairs pairs := rfl
    have hkey : core.keeps index = true := by simp [Core.keeps, h, heven]
    have hvalue : core.keeps (index + 1) = false := by
      rw [Core.keeps, h, Nat.add_mod, heven]
      rfl
    rw [hcons, List.map_cons, List.map_cons, Outline.echoParts, Outline.echoParts, hkey, hvalue,
      ih (index + 1 + 1) (by omega)]
    rfl

theorem regains_object {pairs pairs' : List (Tree × Tree)} (h : data.Plain { tag := .objectLit })
    (hall : List.Forall₂ x.Repairs pairs pairs') (id' : NodeId) (line : Nat) :
    x.Regains (.node id data (Tree.flatPairs pairs))
      (.node id' (.leaf .objectLit line) (Tree.flatPairs pairs')) := by
  have hplain := Node.plain_leaf .objectLit line
  have hcore : ({ tag := .objectLit } : Core).echo x.o.compact = { tag := .objectLit } :=
    core_echo (by simp)
  constructor
  · rw [Tape.Echoes, Tree.sketch_node, Tree.sketch_node, Outline.echo, h.core, hplain.core,
      ← Core.bare_echo, hcore, echoParts_pairs rfl 0 rfl]
    congr 1
    induction hall with
    | nil => rfl
    | @cons p p' pairs pairs' hp _ ih =>
      have hcons : Tree.flatPairs (p' :: pairs') = p'.1 :: p'.2 :: Tree.flatPairs pairs' := rfl
      rw [hcons, List.map_cons, List.map_cons, ih, hp.1.sketch, hp.2.echo, List.flatMap_cons]
      rfl
  · rw [remarks_plain h, remarks_plain hplain]
    induction hall with
    | nil => simp [Tree.flatPairs, Tree.remarksAll]
    | @cons p p' pairs pairs' hp _ ih =>
      have hcons : ∀ (q : Tree × Tree) qs, Tree.remarksAll (Tree.flatPairs (q :: qs))
          = q.1.remarks ++ (q.2.remarks ++ Tree.remarksAll (Tree.flatPairs qs)) := fun _ _ => rfl
      rw [hcons, hcons, ih, hp.1.bare.1, hp.1.bare.2, hp.2.remarks, List.nil_append,
        List.nil_append, Tape.recalled_append]

theorem collects_pairs {n : Nat} {done pairs : List (Tree × Tree)}
    (hkeys : ∀ p ∈ pairs, IsKey x.dialect p.1) (hall : ∀ p ∈ pairs, ExprYields x p.2) :
    Collects x s₀ n (nested n).objectProperty
      (x.words false false (separated (pairs.map (pairSteps x.o)) ++ .token "\x7d" :: more))
      (PairsAgain x done) (PairsAgain x (done ++ pairs))
      (x.words false false (.token "\x7d" :: more)) := by
  have hclose : x.words false false (.token "\x7d" :: more)
      = ⟨⟨.rightBrace, none, none⟩, false⟩ :: x.words false false more :=
    x.words_text "\x7d" .rightBrace (by decide) rfl more
  induction pairs generalizing done with
  | nil =>
    refine .finish fun s items _ hitems hfed => ?_
    rw [List.append_nil]
    refine ensures_ifCheck (fun _ => ensures_pure ⟨items, rfl, hitems, hfed⟩) fun hne => absurd ?_ hne
    have hfaces := hfed
    change Fed x s₀ (x.words false false (.token "\x7d" :: more)) s at hfaces
    rw [hclose] at hfaces
    exact hfaces.tag_eq (by simp)
  | cons p rest ih =>
    have hrest := @ih (done ++ [p]) (fun q hq => hkeys q (List.mem_cons_of_mem p hq))
      fun q hq => hall q (List.mem_cons_of_mem p hq)
    -- behind the value stands the closing brace, or a comma and another pair
    obtain ⟨zs, hzs, hsteps, hnext⟩ : ∃ zs, Follows (.token "\x7d" :: more) zs
        ∧ separated ((p :: rest).map (pairSteps x.o)) ++ .token "\x7d" :: more
          = pairSteps x.o p ++ zs
        ∧ x.words false false zs = if rest.isEmpty then x.words false false (.token "\x7d" :: more)
          else ⟨⟨.comma, none, none⟩, false⟩ :: x.words false false
            (separated (rest.map (pairSteps x.o)) ++ .token "\x7d" :: more) := by
      cases rest with
      | nil => exact ⟨_, .inl rfl, rfl, rfl⟩
      | cons q rest =>
        refine ⟨.token "," :: .space :: (separated ((q :: rest).map (pairSteps x.o))
          ++ .token "\x7d" :: more), .inr ⟨_, rfl⟩, by simp [separated], ?_⟩
        rw [x.words_text "," .comma (by decide) rfl, x.words_space]
        rfl
    obtain ⟨sym, hword, hbrace, hread⟩ := key_reads s₀ (hkeys p (by simp))
    have hcolon : ∀ steps, x.words false false (.token ":" :: .space :: steps)
        = ⟨⟨.colon, none, none⟩, false⟩ :: x.words false false steps := fun steps => by
      rw [x.words_text ":" .colon (by decide) rfl, x.words_space]
    have hvalue : Takes x s₀ n ((nested n).assignment false)
        (x.words false false (exprAt x.o p.2 { use := .operand Precedence.assignment } ++ zs))
        (x.Redraws p.2) (x.words false false zs) :=
      item_takes (hall p (by simp)) n (by decide : Tag.rightBrace ∈ _ ∧ _ ∧ _) hzs
    have hlt := hvalue.shorter
    have hle : (x.words false false (separated (rest.map (pairSteps x.o))
        ++ .token "\x7d" :: more)).length ≤ (x.words false false zs).length := by
      rw [hnext]
      split
      · next hempty =>
        rw [List.isEmpty_iff.mp hempty]
        exact Nat.le_refl _
      · exact Nat.le_succ _
    rw [List.append_cons done p, hsteps, pairSteps, List.cons_append, List.cons_append,
      List.cons_append, hword, hcolon]
    refine hrest.turn (by simp only [List.length_cons]; omega) fun s items hn hitems hfed => ?_
    refine ensures_ifCheck (fun heq => absurd heq (hfed.tag_ne hbrace (by simp))) fun _ => ?_
    refine hread hfed fun key' s₁ hkey' hs₁ => ?_
    refine hs₁.expect rfl (by decide) fun s₂ hs₂ => ?_
    simp only [List.length_cons] at hn
    refine hvalue.bind (by omega) hs₂ fun value' s₃ hvalue' hs₃ => ?_
    have hpair : x.Repairs p (key', value') := ⟨hkey', hvalue'⟩
    have hadded := hitems.snoc hpair
    rw [hnext] at hs₃
    cases rest with
    | nil =>
      change Fed x s₀ (x.words false false (.token "\x7d" :: more)) s₃ at hs₃
      have hcurrent : s₃.current.tag = .rightBrace := by
        have hfaces := hs₃
        rw [hclose] at hfaces
        exact hfaces.tag_eq (by simp)
      refine ensures_ifCheck (fun heq => by rw [hcurrent] at heq; cases heq) fun _ => ?_
      refine ensures_ifCheck (fun _ => ?_) fun hne => absurd hcurrent hne
      exact ensures_pure ⟨_, rfl, hadded, hs₃⟩
    | cons q rest =>
      rw [List.isEmpty_cons, if_neg Bool.false_ne_true] at hs₃
      have hcurrent : s₃.current.tag = .comma := hs₃.tag_eq (by simp)
      refine ensures_ifCheck (fun _ => ?_) fun hne => absurd hcurrent hne
      refine hs₃.advance (by simp) fun s₄ hs₄ => ?_
      obtain ⟨sym', hword', hbrace', -⟩ := key_reads s₀ (hkeys q (by simp))
      have hhead : ∀ w ∈ (x.words false false (separated ((q :: rest).map (pairSteps x.o))
          ++ .token "\x7d" :: more)).head?, w.sym.tag ≠ .rightBrace := by
        cases rest with
        | nil =>
          rw [List.map_cons, List.map_nil, separated, pairSteps, List.cons_append, hword']
          rintro w ⟨rfl⟩
          exact hbrace'
        | cons r rest =>
          rw [List.map_cons, List.map_cons, separated, pairSteps, List.append_assoc,
            List.cons_append, hword']
          · rintro w ⟨rfl⟩
            exact hbrace'
          · simp
      refine ensures_ifCheck (fun heq => absurd heq (hs₄.head_ne hhead (by decide))) fun _ => ?_
      exact ensures_pure ⟨_, rfl, hadded, hs₄⟩

theorem object_yields {pairs : List (Tree × Tree)} (h : data.Plain { tag := .objectLit })
    (hkeys : ∀ p ∈ pairs, IsKey x.dialect p.1) (hall : ∀ p ∈ pairs, ExprYields x p.2) :
    BareYields x (.node id data (Tree.flatPairs pairs)) := by
  have htag : data.tag = .objectLit := congrArg Core.tag h.core
  refine .of_primary .leftBrace (precedence_tight htag (by decide)) (by simp)
    fun {s₀ place b more} => ⟨⟨⟨.leftBrace, none, none⟩, b⟩, x.words false false
      (separated (pairs.map (pairSteps x.o)) ++ .token "\x7d" :: more), ?_, rfl, ?_⟩
  · rw [bareAt_object h.core, List.append_assoc, List.cons_append,
      x.words_text "\x7b" .leftBrace (by decide) rfl]
    rfl
  have hclose : x.words false false (.token "\x7d" :: more)
      = ⟨⟨.rightBrace, none, none⟩, false⟩ :: x.words false false more :=
    x.words_text "\x7d" .rightBrace (by decide) rfl more
  have hlt := x.length_words_behind false false (separated (pairs.map (pairSteps x.o))) (.token "\x7d" :: more)
  refine ⟨?_, fun n s hn hfed => ensures_get ?_⟩
  · change (x.words false false (.token "\x7d" :: more)).length ≤ (x.words false false _).length
      at hlt
    rw [hclose] at hlt
    exact Nat.lt_of_lt_of_le (Nat.lt_succ_self _) (Nat.le_succ_of_le hlt)
  have hcurrent : s.current.tag = .leftBrace := hfed.tag_eq (by simp)
  rw [if_neg (by simp [Token.isSlash, hcurrent])]
  refine ensures_get ?_
  simp only [hcurrent]
  refine hfed.advance (by simp) fun s₁ hs₁ => ?_
  have hitems : Collects x s₀ n (nested n).objectProperty _ (PairsAgain x [])
      (PairsAgain x ([] ++ pairs)) (x.words false false (.token "\x7d" :: more)) :=
    collects_pairs hkeys hall
  refine (hitems.repeatTurns hn ⟨[], rfl, .nil⟩ hs₁).bind fun parts' s₂ hread => ?_
  obtain ⟨⟨pairs', rfl, hpairs⟩, hs₂⟩ := hread
  rw [hclose] at hs₂
  refine hs₂.expect rfl (by decide) fun s₃ hs₃ => ?_
  refine hs₃.makeNode_last fun id' s₄ hs₄ => ⟨?_, hs₄⟩
  have hplain := Node.plain_leaf .objectLit s.current.line
  refine redraws_bare (regains_object h hpairs id' _) fun o ho place => ?_
  rw [bareAt_object h.core, bareAt_object hplain.core]
  refine .cons _ ((separated_same hpairs.flip fun p' p hp => ?_).behind _)
  rw [pairSteps, pairSteps, hp.1.text]
  exact .cons _ (.cons _ (.cons _ (hp.2.drawn o ho _)))

end
end ScriptPress.Grammar
