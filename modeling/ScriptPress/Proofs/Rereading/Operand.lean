import ScriptPress.Proofs.Rereading.Parens

/-! # Reading names and literals again

A name or a literal is one token, and the reader of primary expressions makes the node of it. A
string in compact output comes back without its line continuations.
-/
namespace ScriptPress.Grammar
open Lexer Render

section
variable {x : Tape} {s₀ : State} {t : Tree} {id : NodeId} {data : Node} {b : Bool} {place : Place}
  {w : Word} {ws : List Word} {more : List WriterStep}

/-! ## Leaves -/

/-- An expression that binds as tightly as an operand is read as one. -/
theorem BareYields.of_member (hp : Precedence.member ≤ t.data.precedence)
    (h : ∀ {s₀ allowCall place} {b : Bool} {more} (noIn : Bool),
      allowCall = true ∨ t.containsCall = false →
      (∀ level, place.use = .operand level →
        Stops Precedence.member noIn (x.words false false more)) →
      Continues x s₀ (·.memberOf allowCall) (·.access allowCall)
        (x.words b false (bareAt x.o t place ++ more)) t (x.words false false more)) :
    BareYields x t := by
  have hnot : ¬ Repeats t.data.precedence := by
    intro hrep
    change t.data.precedence = 1 ∨ 4 ≤ t.data.precedence ∧ t.data.precedence ≤ 13 at hrep
    change 16 ≤ t.data.precedence at hp
    omega
  exact ⟨fun _ => h, fun hrep => absurd hrep hnot, fun hlt => absurd hp (Nat.not_le_of_lt hlt)⟩

/-- The words of a primary expression, which begin with a token of a tag. -/
theorem BareYields.of_primary (tag : Tag) (hp : Precedence.member ≤ t.data.precedence)
    (htag : tag ≠ .kwNew ∧ tag ≠ .kwFunction)
    (h : ∀ {s₀ place} {b : Bool} {more}, ∃ w ws,
      x.words b false (bareAt x.o t place ++ more) = w :: ws ∧ w.sym.tag = tag
        ∧ Yields x s₀ (·.primary) (w :: ws) (x.Redraws t) (x.words false false more)) :
    BareYields x t := by
  refine .of_member hp fun {s₀ _ place b more} _ _ _ => ?_
  obtain ⟨w, ws, hwords, hw, hyields⟩ := @h s₀ place b more
  rw [hwords]
  refine continues_primary hyields ?_
  rintro w' ⟨rfl⟩
  rwa [hw]

/-- A token that a node is made of. -/
theorem yields_leaf {P : Tree → Prop}
    (hw : w.sym.tag ≠ .regExp ∧ w.sym.tag ≠ .div ∧ w.sym.tag ≠ .assign)
    (h : ∀ n s, s.current.sym = w.sym → s.current.isSlash = false → Fed x s₀ (w :: ws) s →
      Ensures True ((nested n).primary) s fun t s' => P t ∧ Fed x s₀ ws s') :
    Yields x s₀ (·.primary) (w :: ws) P ws := by
  refine ⟨by simp, fun n s hn hs => ?_⟩
  have hsym := hs.sym hw.1
  have htag : s.current.tag = w.sym.tag := congrArg Sym.tag hsym
  exact h n s hsym (by simp [Token.isSlash, htag, hw]) hs

theorem shown_eq {token : Token} {tag : Tag} {name : String}
    (h : token.sym = ⟨tag, none, some name⟩) : token.shown = name := by
  have htext : token.text = some name := congrArg Sym.text h
  rw [Token.shown, htext]
  rfl

/-- The tags of nodes that bind as tightly as operands. -/
def tightTags : List Tag :=
  [.identifier, .number, .string, .regExp, .primary, .kwFunction, .arrayLit, .objectLit, .call,
   .kwNew, .getProp, .getElem]

theorem precedence_tight {tag : Tag} (h : data.tag = tag) (ht : tag ∈ tightTags) :
    Precedence.member ≤ data.precedence := by
  have hall : ∀ tag ∈ tightTags, Precedence.member ≤ (Node.leaf tag 0).precedence := by decide
  have hsame : data.precedence = (Node.leaf tag 0).precedence := by
    unfold Node.precedence
    rw [h]
    cases tag <;> first | rfl | simp [tightTags] at ht
  rw [hsame]
  exact hall tag ht

theorem name_yields {name : String} (h : data.Plain { tag := .identifier, payload := .text name })
    (hname : IsName x.dialect name) : BareYields x (.node id data []) := by
  have htag : data.tag = .identifier := congrArg Core.tag h.core
  refine .of_primary .identifier (precedence_tight htag (by decide)) (by simp)
    fun {s₀ place b more} =>
      ⟨⟨⟨.identifier, none, some name⟩, b⟩, x.words false false more, ?_, rfl, ?_⟩
  · rw [bareAt_identifier h.core, List.singleton_append, x.words_lexeme hname]
  refine yields_leaf (by simp) fun n s hsym hslash hs => ?_
  have hcurrent : s.current.tag = .identifier := congrArg Sym.tag hsym
  refine ensures_get ?_
  rw [if_neg (by simp [hslash])]
  refine ensures_get ?_
  simp only [hcurrent]
  refine hs.advance (by simp) fun s₁ hs₁ => ?_
  refine hs₁.warnOfKeyword fun s₂ hs₂ => ?_
  refine hs₂.modifyScope rfl fun s₃ hs₃ => ?_
  refine hs₃.makeNode_last fun id s₄ hs₄ => ⟨?_, hs₄⟩
  rw [shown_eq hsym]
  have hplain := Node.plain_identifier name s.current.line
  refine redraws_node h hplain (by simp) .nil fun o _ place => .of_eq ?_
  rw [bareAt_identifier h.core, bareAt_identifier hplain.core]

theorem number_yields {s : String} (h : data.Plain { tag := .number, payload := .number s })
    (hs : IsLexeme x.dialect s.toList ⟨.number, none, some s⟩) :
    BareYields x (.node id data []) := by
  have htag : data.tag = .number := congrArg Core.tag h.core
  refine .of_primary .number (precedence_tight htag (by decide)) (by simp)
    fun {s₀ place b more} =>
      ⟨⟨⟨.number, none, some s⟩, b⟩, x.words false false more, ?_, rfl, ?_⟩
  · rw [bareAt_number h.core, List.singleton_append, x.words_number hs]
  refine yields_leaf (by simp) fun n s' hsym hslash hs' => ?_
  have hcurrent : s'.current.tag = .number := congrArg Sym.tag hsym
  refine ensures_get ?_
  rw [if_neg (by simp [hslash])]
  refine ensures_get ?_
  simp only [hcurrent]
  refine hs'.advance (by simp) fun s₁ hs₁ => ?_
  refine hs₁.makeNode_last fun id s₂ hs₂ => ⟨?_, hs₂⟩
  rw [shown_eq hsym]
  have hplain := Node.plain_number s s'.current.line
  refine redraws_node h hplain (by simp) .nil fun o _ place => .of_eq ?_
  rw [bareAt_number h.core, bareAt_number hplain.core]

/-- What compact output leaves of a string. -/
def Tape.stringText (x : Tape) (s : String) : String :=
  if x.o.compact then withoutContinuations s else s

theorem Tape.isLexeme_string {s : String}
    (hs : IsLexeme x.dialect s.toList ⟨.string, none, some s⟩) :
    IsLexeme x.dialect (x.stringText s).toList ⟨.string, none, some (x.stringText s)⟩ := by
  rw [stringText]
  split
  · exact isLexeme_joined hs
  · exact hs

/-- A string without its line continuations has none to lose. -/
theorem Tape.Suffices.stringText {o : RenderOptions} (h : x.Suffices o) (s : String) :
    (if o.compact then withoutContinuations (x.stringText s) else x.stringText s)
      = if o.compact then withoutContinuations s else s := by
  by_cases ho : o.compact = true
  · rw [if_pos ho, if_pos ho, Tape.stringText]
    split
    · exact withoutContinuations_idem s
    · rfl
  · have hx : ¬ x.o.compact = true := fun hx => ho (h.joins hx)
    rw [if_neg ho, if_neg ho, Tape.stringText, if_neg hx]

theorem string_yields {s : String} (h : data.Plain { tag := .string, payload := .text s })
    (hs : IsLexeme x.dialect s.toList ⟨.string, none, some s⟩) :
    BareYields x (.node id data []) := by
  have htag : data.tag = .string := congrArg Core.tag h.core
  refine .of_primary .string (precedence_tight htag (by decide)) (by simp)
    fun {s₀ place b more} =>
      ⟨⟨⟨.string, none, some (x.stringText s)⟩, b⟩, x.words false false more, ?_, rfl, ?_⟩
  · rw [bareAt_string h.core, List.singleton_append]
    exact x.words_lexeme (x.isLexeme_string hs) more
  refine yields_leaf (by simp) fun n s' hsym hslash hs' => ?_
  have hcurrent : s'.current.tag = .string := congrArg Sym.tag hsym
  refine ensures_get ?_
  rw [if_neg (by simp [hslash])]
  refine ensures_get ?_
  simp only [hcurrent]
  refine hs'.advance (by simp) fun s₁ hs₁ => ?_
  refine hs₁.makeNode_last fun id s₂ hs₂ => ⟨?_, hs₂⟩
  rw [shown_eq hsym]
  have hplain := Node.plain_string (x.stringText s) s'.current.line
  refine redraws_bare ⟨echoes_core h.core ?_ (by simp) .nil, ?_⟩ fun o ho place => .of_eq ?_
  · rw [hplain.core, Core.echo, Core.joined, if_pos rfl, Tape.stringText]
    split <;> rfl
  · rw [remarks_plain h, remarks_plain hplain, Tree.remarksAll, Tape.recalled_nil]
  · rw [bareAt_string h.core, bareAt_string hplain.core, ho.stringText]

theorem regExp_yields {s : String} (h : data.Plain { tag := .regExp, payload := .text s }) :
    BareYields x (.node id data []) := by
  have htag : data.tag = .regExp := congrArg Core.tag h.core
  refine .of_primary .regExp (precedence_tight htag (by decide)) (by simp)
    fun {s₀ place b more} => ⟨⟨.pattern s.toList, b⟩, x.words false false more, ?_, rfl, ?_⟩
  · rw [bareAt_regExp h.core]
    rfl
  refine ⟨by simp, fun n s' hn hs => ensures_get ?_⟩
  rw [if_pos (hs.slash rfl)]
  refine hs.rescan fun s₁ hcurrent hshown hadvance => ?_
  refine ensures_get ?_
  simp only [hcurrent]
  refine hadvance fun s₂ hs₂ => ?_
  refine hs₂.makeNode_last fun id s₃ hs₃ => ⟨?_, hs₃⟩
  rw [hshown, String.ofList_toList]
  have hplain := Node.plain_regExp s s₁.current.line
  refine redraws_node h hplain (by simp) .nil fun o _ place => .of_eq ?_
  rw [bareAt_regExp h.core, bareAt_regExp hplain.core]

theorem primary_yields {value : Tag} (h : data.Plain { tag := .primary, datum := some value })
    (hsign : IsSign x.dialect .primary (some value)) : BareYields x (.node id data []) := by
  have htag : data.tag = .primary := congrArg Core.tag h.core
  refine .of_primary .primary (precedence_tight htag (by decide)) (by simp)
    fun {s₀ place b more} =>
      ⟨⟨⟨.primary, some value, none⟩, b⟩, x.words false false more, ?_, rfl, ?_⟩
  · have hspelled : value.spelling = signText .primary (some value) := rfl
    rw [bareAt_primary h.core, hspelled, List.singleton_append, x.words_sign hsign]
  refine yields_leaf (by simp) fun n s hsym hslash hs => ?_
  have hcurrent : s.current.tag = .primary := congrArg Sym.tag hsym
  have hdatum : s.current.datum = some value := congrArg Sym.datum hsym
  refine ensures_get ?_
  rw [if_neg (by simp [hslash])]
  refine ensures_get ?_
  simp only [hcurrent]
  refine hs.advance (by simp) fun s₁ hs₁ => ?_
  have hplain := Node.plain_primary value s.current.line
  have hlast : ∀ s₂, Fed x s₀ (x.words false false more) s₂ →
      Ensures True (makeNode (.primary value s.current.line) []) s₂ fun t s' =>
        x.Redraws (.node id data []) t ∧ Fed x s₀ (x.words false false more) s' := by
    intro s₂ hs₂
    refine hs₂.makeNode_last fun id s₃ hs₃ => ⟨?_, hs₃⟩
    refine redraws_node h hplain (by simp) .nil fun o _ place => .of_eq ?_
    rw [bareAt_primary h.core, bareAt_primary hplain.core]
  simp only [hdatum, Option.getD_some]
  split
  · exact hs₁.modifyScope rfl fun s₂ hs₂ => hlast s₂ hs₂
  · exact hlast s₁ hs₁

theorem leaf_yields {core : Core} (h : data.Plain core) (hleaf : IsLeaf x.dialect core) :
    BareYields x (.node id data []) := by
  cases hleaf with
  | name hname => exact name_yields h hname
  | number hs => exact number_yields h hs
  | string hs => exact string_yields h hs
  | regExp => exact regExp_yields h
  | primary hsign => exact primary_yields h hsign

end
end ScriptPress.Grammar
