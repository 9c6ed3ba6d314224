import ScriptPress.Proofs.Lexical.Joining
import ScriptPress.Proofs.Printing.Signs
import ScriptPress.Proofs.Printing.Steps

/-! # What is written flows

Instructions for a well-formed tree put only tokens side by side that can stand there. Expressions
begin with what an operand begins with, and end with a token that only a point may be too close to;
statements begin and end with tokens that everything may stand beside.
-/
namespace ScriptPress
open Lexer Written

/-! ## Passing from token to token -/

section
variable {d : Dialect} {pre pre' mid post post' : Written → Prop} {xs ys steps : List WriterStep}

/-- Instructions that can follow one sort of token and that end with another. -/
def Passes (d : Dialect) (pre post : Written → Prop) (steps : List WriterStep) : Prop :=
  ∀ last ended more, (∀ k ∈ last, pre k) → (∀ k, post k → Flows d (some k) false more) →
    Flows d last ended (steps ++ more)

namespace Passes

theorem mono (h : Passes d pre post steps) (hpre : ∀ k, pre' k → pre k)
    (hpost : ∀ k, post k → post' k) : Passes d pre' post' steps :=
  fun last ended more hlast hmore =>
    h last ended more (fun k hk => hpre k (hlast k hk)) fun k hk => hmore k (hpost k hk)

theorem append (h : Passes d pre mid xs) (h' : Passes d mid post ys) :
    Passes d pre post (xs ++ ys) := by
  intro last ended more hlast hmore
  rw [List.append_assoc]
  refine h last ended _ hlast fun k hk => h' (some k) false more ?_ hmore
  rintro _ ⟨rfl⟩
  exact hk

theorem written {step : WriterStep} {t : Written} (hs : step.written? = some t)
    (ht : t.Genuine d) (hpre : ∀ k, pre k → k.Meets t.text) (hpost : post t) :
    Passes d pre post [step] := by
  intro last ended more hlast hmore
  have hmeets : ∀ k ∈ last, k.Meets t.text := fun k hk => hpre k (hlast k hk)
  cases step with
  | token _ | number _ | regExp _ | hardSemicolon =>
    cases hs
    exact ⟨ht, hmeets, hmore _ hpost⟩
  | _ => cases hs

theorem cons {step : WriterStep} (h : Passes d pre mid [step]) (h' : Passes d mid post steps) :
    Passes d pre post (step :: steps) := h.append h'

/-- A step that writes no token. -/
theorem skip {step : WriterStep} (hs : step.written? = none)
    (hne : step ≠ .semicolon ∧ step ≠ .missing ∧ ∀ text, step ≠ .comment text)
    (h : Passes d pre post steps) :
    Passes d pre post (step :: steps) := by
  intro last ended more hlast hmore
  have hflow := h last ended more hlast hmore
  cases step with
  | semicolon => exact absurd rfl hne.1
  | missing => exact absurd rfl hne.2.1
  | comment text => exact absurd rfl (hne.2.2 text)
  | token _ | number _ | regExp _ | hardSemicolon => cases hs
  | _ => exact hflow

theorem space (h : Passes d pre post steps) : Passes d pre post (.space :: steps) :=
  skip rfl (by simp) h

end Passes

/-- Instructions that can stand behind any statement and before any. -/
def Steady (d : Dialect) (steps : List WriterStep) : Prop :=
  ∀ last ended more, (∀ k ∈ last, Free k) →
    (∀ last' ended', (∀ k ∈ last', Free k) → Flows d last' ended' more) →
    Flows d last ended (steps ++ more)

namespace Steady

theorem nil : Steady d [] := fun last ended _ hlast hmore => hmore last ended hlast

theorem append (h : Steady d xs) (h' : Steady d ys) : Steady d (xs ++ ys) := by
  intro last ended more hlast hmore
  rw [List.append_assoc]
  exact h last ended _ hlast fun last' ended' hlast' => h' last' ended' more hlast' hmore

theorem of_passes (h : Passes d Free Free steps) : Steady d steps := by
  intro last ended more hlast hmore
  refine h last ended more hlast fun k hk => hmore (some k) false ?_
  rintro _ ⟨rfl⟩
  exact hk

/-- The end of a statement. -/
theorem semicolon (h : Passes d Free post steps) : Steady d (steps ++ [.semicolon]) := by
  intro last ended more hlast hmore
  rw [List.append_assoc]
  exact h last ended _ hlast fun k _ => ⟨rfl, hmore none true (by simp)⟩

theorem skip {step : WriterStep} (hs : step.written? = none)
    (hne : step ≠ .semicolon ∧ step ≠ .missing ∧ ∀ text, step ≠ .comment text)
    (h : Steady d steps) :
    Steady d (step :: steps) := by
  intro last ended more hlast hmore
  have hflow := h last ended more hlast hmore
  cases step with
  | semicolon => exact absurd rfl hne.1
  | missing => exact absurd rfl hne.2.1
  | comment text => exact absurd rfl (hne.2.2 text)
  | token _ | number _ | regExp _ | hardSemicolon => cases hs
  | _ => exact hflow

/-- Behind instructions that end well, steady ones. -/
theorem after (h : Passes d Free Free xs) (h' : Steady d ys) : Steady d (xs ++ ys) :=
  (of_passes h).append h'

theorem comments {cs : List String} (h : ∀ c ∈ cs, Gap.IsComment c.toList) :
    Steady d (cs.map .comment) := by
  induction cs with
  | nil => exact nil
  | cons c cs ih =>
    intro last ended more hlast hmore
    exact ⟨h c (by simp), ih (fun b hb => h b (by simp [hb])) last ended more hlast hmore⟩

theorem flatMap {α : Type} {as : List α} {f : α → List WriterStep}
    (h : ∀ a ∈ as, Steady d (f a)) : Steady d (as.flatMap f) := by
  induction as with
  | nil => exact nil
  | cons a as ih =>
    rw [List.flatMap_cons]
    exact (h a (by simp)).append (ih fun b hb => h b (by simp [hb]))

end Steady

/-! ## Single tokens -/

namespace Passes

/-- A sign where an operand may begin, or which follows one. -/
theorem sign {tag : Tag} {datum : Option Tag} (h : IsSign d tag datum)
    (hpre : ∀ k, pre k → k.Meets (signText tag datum).toList)
    (hpost : post ⟨.plain, (signText tag datum).toList⟩) :
    Passes d pre post [.token (signText tag datum)] :=
  written rfl (genuine_sign h) hpre hpost

/-- A sign behind an operand and before another one. -/
theorem operator {tag : Tag} {datum : Option Tag} (h : IsSign d tag datum) (hdot : tag ≠ .dot) :
    Passes d Ended Leads [.token (signText tag datum)] :=
  sign h (fun _ hk => hk.meets (sign_head h hdot)) (leads_of_sign h hdot)

/-- A sign behind an operand, beside which everything can stand. -/
theorem closing (tag : Tag) (h : tag ∈ everywhere)
    (ht : tag ∈ [Tag.rightParen, .rightBracket, .rightBrace, .leftParen, .leftBracket, .semicolon,
      .comma, .colon, .question, .increment, .decrement]) :
    Passes d Ended Free [.token (signText tag none)] := by
  have hsign := isSign_everywhere (d := d) h
  have hdot : tag ≠ .dot := by
    rintro rfl
    simp at ht
  refine sign hsign (fun _ hk => hk.meets (sign_head hsign hdot)) (free_of_sign hsign (.inl ?_))
  revert ht
  simp only [List.mem_cons, List.not_mem_nil, or_false]
  rintro (rfl | rfl | rfl | rfl | rfl | rfl | rfl | rfl | rfl | rfl | rfl) <;> simp

/-- A sign that an operand begins with. -/
theorem opening {tag : Tag} {datum : Option Tag} (h : IsSign d tag datum) (ht : tag ∈ operandSigns)
    (hpost : post ⟨.plain, (signText tag datum).toList⟩) :
    Passes d Leads post [.token (signText tag datum)] :=
  sign h (fun _ hk => hk.meets (headsOperand_sign h ht)) hpost

/-- A bracket that an operand begins with. -/
theorem bracket (tag : Tag) (ht : tag ∈ [Tag.leftParen, .leftBracket, .leftBrace]) :
    Passes d Leads Free [.token (signText tag none)] := by
  have hsorts : ∀ tag ∈ [Tag.leftParen, .leftBracket, .leftBrace],
      tag ∈ everywhere ∧ tag ∈ operandSigns ∧ tag ∈ [Tag.leftParen, .rightParen, .leftBracket,
        .rightBracket, .leftBrace, .rightBrace, .semicolon, .comma, .colon, .question, .increment,
        .decrement] := by
    decide
  obtain ⟨hevery, hoperand, halone⟩ := hsorts tag ht
  have hsign : IsSign d tag none := isSign_everywhere hevery
  exact opening hsign hoperand (free_of_sign hsign (.inl halone))

/-- A word of the language; everything can stand beside it. -/
theorem keyword (tag : Tag) (h : IsSign d tag none)
    (hw : opensWord (signText tag none).toList = true) :
    Passes d Ended Free [.token (signText tag none)] := by
  have hdot : tag ≠ .dot := by
    rintro rfl
    revert hw
    decide
  exact sign h (fun _ hk => hk.meets (sign_head h hdot)) (free_of_sign h (.inr hw))

/-- A name. -/
theorem name {s : String} (h : IsName d s ∨ IsReserved d s) : Passes d Leads Free [.token s] := by
  obtain ⟨hgenuine, hfree, hhead⟩ := free_name h
  exact written rfl hgenuine (fun _ hk => hk.meets hhead) hfree

/-- A name behind a point. -/
theorem point {s : String} (h : IsName d s ∨ IsReserved d s) :
    Passes d Free Free [.token ".", .token s] := by
  obtain ⟨hgenuine, hfree, -⟩ := free_name h
  have hdot : IsSign d .dot none := isSign_everywhere (by decide)
  have hpoint : Passes d Free (· = ⟨.plain, ['.']⟩) [.token (signText .dot none)] :=
    sign hdot (fun _ hk => hk.meets _) rfl
  have hname : Passes d (· = ⟨.plain, ['.']⟩) Free [.token s] := by
    refine written rfl hgenuine ?_ hfree
    rintro _ rfl
    exact point_meets h
  exact hpoint.append hname

/-! ## Sequences -/

/-- What may be left out between two signs. -/
theorem within {first last : WriterStep} (hfirst : Passes d pre Free [first])
    (hxs : xs = [] ∨ Passes d Leads Ended xs) (hlast : Passes d Ended post [last]) :
    Passes d pre post (first :: xs ++ [last]) := by
  rcases hxs with rfl | hxs
  · exact hfirst.append (hlast.mono (fun _ hk => hk.ended) fun _ hk => hk)
  · have hinner : Passes d Free Ended xs := hxs.mono (fun _ hk => hk.leads) fun _ hk => hk
    exact hfirst.append (hinner.append hlast)

theorem openParen : Passes d Leads Free [.token "("] := bracket .leftParen (by decide)

theorem openBracket : Passes d Leads Free [.token "["] := bracket .leftBracket (by decide)

theorem openBrace : Passes d Leads Free [.token "\x7b"] := bracket .leftBrace (by decide)

theorem closeParen : Passes d Ended Free [.token ")"] := closing .rightParen (by decide) (by decide)

theorem closeBracket : Passes d Ended Free [.token "]"] :=
  closing .rightBracket (by decide) (by decide)

theorem closeBrace : Passes d Ended Free [.token "\x7d"] :=
  closing .rightBrace (by decide) (by decide)

theorem comma : Passes d Ended Free [.token ","] := closing .comma (by decide) (by decide)

theorem colon : Passes d Ended Free [.token ":"] := closing .colon (by decide) (by decide)

theorem semicolon : Passes d Ended Free [.token ";"] := closing .semicolon (by decide) (by decide)

theorem separated {items : List (List WriterStep)} (hne : items ≠ [])
    (h : ∀ x ∈ items, Passes d Leads Ended x) : Passes d Leads Ended (Render.separated items) := by
  induction items with
  | nil => exact absurd rfl hne
  | cons x items ih =>
    have hx := h x (by simp)
    cases items with
    | nil => exact hx
    | cons y items =>
      have hmore := ih (by simp) fun z hz => h z (by simp [hz])
      have hrest : Passes d Free Ended (.space :: Render.separated (y :: items)) :=
        (hmore.mono (fun _ hk => hk.leads) fun _ hk => hk).space
      exact hx.append (comma.cons hrest)

theorem separated_or {items : List (List WriterStep)} (h : ∀ x ∈ items, Passes d Leads Ended x) :
    Render.separated items = [] ∨ Passes d Leads Ended (Render.separated items) := by
  cases items with
  | nil => exact .inl rfl
  | cons x items => exact .inr (separated (by simp) h)

end Passes

/-- Steady instructions in front of a token. -/
theorem Steady.closed {step : WriterStep} {t : Written} (h : Steady d xs)
    (hs : step.written? = some t) (ht : t.Genuine d) (hpost : post t) :
    Passes d Free post (xs ++ [step]) := by
  intro last ended more hlast hmore
  rw [List.append_assoc]
  refine h last ended _ hlast fun last' ended' hlast' => ?_
  have hstep : Passes d Free post [step] :=
    .written hs ht (fun _ hk => hk.meets _) hpost
  exact hstep last' ended' more hlast' hmore

end

/-! ## Expressions -/

namespace Render
variable {d : Dialect} {o : RenderOptions} {t left right : Tree} {place : Place} {id : NodeId}
  {data : Node}

/-- What is written of an expression flows: behind what can lead it, up to an end that at most a
point is too close to. Nothing is too close to what binds tightly. -/
structure ExprFlows (d : Dialect) (o : RenderOptions) (t : Tree) : Prop where
  ended : ∀ place, Passes d Leads Ended (bareAt o t place)
  free : Precedence.member ≤ t.data.precedence → isWholeNumber t.data = false →
    ∀ place, Passes d Leads Free (bareAt o t place)

namespace ExprFlows

theorem of_free (h : ∀ place, Passes d Leads Free (bareAt o t place)) : ExprFlows d o t where
  ended place := (h place).mono (fun _ hk => hk) fun _ hk => hk.ended
  free _ _ := h

theorem of_loose (h : ∀ place, Passes d Leads Ended (bareAt o t place))
    (hl : t.data.precedence < Precedence.member) : ExprFlows d o t where
  ended := h
  free hle := absurd hle (by omega)

theorem parens (h : ExprFlows d o t) (place : Place) :
    Passes d Leads Free (.token "(" :: bareAt o t place.inner ++ [.token ")"]) :=
  .within Passes.openParen (.inr (h.ended place.inner)) .closeParen

/-- An expression at its place. -/
theorem at_ended (h : ExprFlows d o t) (place : Place) :
    Passes d Leads Ended (exprAt o t place) := by
  rw [exprAt_eq]
  split
  · exact (h.parens place).mono (fun _ hk => hk) fun _ hk => hk.ended
  · exact h.ended place

/-- The object of an access or a call and the callee of a `new` bind tightly. -/
theorem at_free (h : ExprFlows d o t) (hu : place.use = .object ∨ place.use = .callee) :
    Passes d Leads Free (exprAt o t place) := by
  rw [exprAt_eq]
  split
  · exact h.parens place
  · next hparens =>
    have htight : Precedence.member ≤ t.data.precedence ∧ isWholeNumber t.data = false := by
      rcases hu with hu | hu <;> simp_all [needsParens]
    exact h.free htight.1 htight.2 place

end ExprFlows

/-- An operation between two parts. -/
theorem infixed_passes {xs ys : List WriterStep} {tag : Tag} {datum : Option Tag}
    (hxs : Passes d Leads Ended xs) (h : IsSign d tag datum) (hdot : tag ≠ .dot)
    (hys : Passes d Leads Ended ys) :
    Passes d Leads Ended (infixed xs (signText tag datum) ys) :=
  hxs.append (((Passes.operator h hdot).cons hys.space).space)

theorem elements_passes {pre : Written → Prop} {xs : List WriterStep} {parts : List Tree}
    (hxs : Passes d pre Ended xs) (h : ∀ t ∈ parts, t.tag ≠ .empty → ExprFlows d o t) :
    Passes d pre Ended (xs ++ elementSteps (parts.map (part o))) := by
  induction parts generalizing xs with
  | nil => simpa [elementSteps] using hxs
  | cons t parts ih =>
    have hcomma : Passes d pre Free (xs ++ [.token ","]) := hxs.append .comma
    have hitem : Passes d pre Ended (xs ++ if t.tag == .empty then [.token ","]
        else .token "," :: .space :: exprAt o t { use := .operand Precedence.assignment }) := by
      split
      · exact hcomma.mono (fun _ hk => hk) fun _ hk => hk.ended
      · next ht =>
        have hexpr := (h t (by simp) (by simpa using ht)).at_ended
          { use := .operand Precedence.assignment }
        have hspaced : Passes d Free Ended
            (.space :: exprAt o t { use := .operand Precedence.assignment }) :=
          (hexpr.mono (fun _ hk => hk.leads) fun _ hk => hk).space
        simpa using hcomma.append hspaced
    have hmore := ih hitem fun t' ht' => h t' (by simp [ht'])
    simpa [elementSteps] using hmore

theorem binaryLevel_bounds {tag : Tag} {level : Nat} (h : tag.binaryPrecedence? = some level) :
    Precedence.or ≤ level ∧ level ≤ Precedence.multiplicative := by
  cases tag <;> cases h <;> decide

theorem precedence_binary {tag : Tag} {level : Nat} (h : data.tag = tag)
    (hl : tag.binaryPrecedence? = some level) : data.precedence = level := by
  rw [Node.precedence, h]
  cases tag <;> cases hl <;> rfl

/-- The operations that bind less tightly than an access. -/
theorem precedence_loose {tag : Tag} (h : data.tag = tag)
    (ht : tag ∈ [Tag.unary, .increment, .decrement, .assign, .question, .comma]) :
    data.precedence < Precedence.member := by
  rw [Node.precedence, h]
  simp only [List.mem_cons, List.not_mem_nil, or_false] at ht
  have hstep : (if data.properties.flag .postfixForm then Precedence.postfixStep
      else Precedence.unary) < Precedence.member := by
    split <;> decide
  rcases ht with rfl | rfl | rfl | rfl | rfl | rfl
  · exact (by decide : Precedence.unary < Precedence.member)
  · exact hstep
  · exact hstep
  · exact (by decide : Precedence.assignment < Precedence.member)
  · exact (by decide : Precedence.conditional < Precedence.member)
  · exact (by decide : Precedence.comma < Precedence.member)

/-! ### Operands -/

theorem flows_leaf {core : Core} (h : data.core = core) (hleaf : IsLeaf d core) :
    ExprFlows d o (.node id data []) := by
  cases hleaf with
  | name hname =>
    refine .of_free fun place => ?_
    rw [bareAt_identifier h]
    exact .name (.inl hname)
  | @number s hs =>
    obtain ⟨hnum, hopens, hne⟩ := number_lexeme hs
    have hpasses : ∀ {post : Written → Prop}, post ⟨.number, s.toList⟩ →
        Passes d Leads post [.number s] := fun hpost =>
      .written rfl (genuine_number hs) (fun _ hk => hk.meets (headsOperand_number hopens)) hpost
    have htag : data.tag = .number := congrArg Core.tag h
    have hpayload : data.payload = .number s := congrArg Core.payload h
    constructor
    · intro place
      rw [bareAt_number h]
      exact hpasses (ended_number hnum hne hopens)
    · intro _ hwhole place
      rw [bareAt_number h]
      refine hpasses (free_number hnum hne hopens ?_)
      simpa [isWholeNumber, Tree.data, htag, Node.data?, hpayload] using hwhole
  | @string s hs =>
    refine .of_free fun place => ?_
    rw [bareAt_string h]
    split
    · obtain ⟨hgenuine, hfree, hhead⟩ := free_stringLit (isLexeme_joined hs)
      exact .written rfl hgenuine (fun _ hk => hk.meets hhead) hfree
    · obtain ⟨hgenuine, hfree, hhead⟩ := free_stringLit hs
      exact .written rfl hgenuine (fun _ hk => hk.meets hhead) hfree
  | regExp hs =>
    refine .of_free fun place => ?_
    rw [bareAt_regExp h]
    refine .written rfl hs (fun _ hk => hk.meets ?_) (free_pattern hs)
    obtain ⟨-, body, hbody, -⟩ := hs
    simp [hbody, headsOperand]
  | @primary value hs =>
    refine .of_free fun place => ?_
    have hspelled : value.spelling = signText .primary (some value) := rfl
    rw [bareAt_primary h, hspelled]
    exact .opening hs (by decide) (free_of_sign hs (.inr (primary_word hs)))

theorem flows_array {parts : List Tree} (h : data.core = { tag := .arrayLit })
    (hall : ∀ t ∈ parts, t.tag ≠ .empty → ExprFlows d o t) : ExprFlows d o (.node id data parts) := by
  have hopen : Passes d Leads Free [.token "["] := .openBracket
  have hclose : Passes d Ended Free [.token "]"] := .closeBracket
  refine .of_free fun place => ?_
  rw [bareAt_array h]
  cases parts with
  | nil => exact .within hopen (.inl rfl) hclose
  | cons t parts =>
    have hfirst : Passes d Leads Ended (.token "[" :: if t.tag == .empty then []
        else exprAt o t { use := .operand Precedence.assignment }) := by
      split
      · exact hopen.mono (fun _ hk => hk) fun _ hk => hk.ended
      · next ht =>
        have hexpr := hall t (by simp) (by simpa using ht)
        have hlead : Passes d Leads Leads [.token "["] :=
          hopen.mono (fun _ hk => hk) fun _ hk => hk.leads
        exact hlead.cons (hexpr.at_ended _)
    have hrest : ∀ t' ∈ parts, t'.tag ≠ .empty → ExprFlows d o t' :=
      fun t' ht' => hall t' (List.mem_cons_of_mem t ht')
    have hinner := elements_passes hfirst hrest
    have hlast : ∀ b : Bool, Passes d Leads Free ((.token "[" :: if t.tag == .empty then []
        else exprAt o t { use := .operand Precedence.assignment })
          ++ elementSteps (parts.map (part o)) ++ (if b then [.token ","] else []) ++ [.token "]"]) := by
      intro b
      cases b with
      | false => simpa using hinner.append hclose
      | true =>
        have hcomma := hinner.append .comma
        exact hcomma.append (hclose.mono (fun _ hk => hk.ended) fun _ hk => hk)
    simpa [arraySteps] using hlast _

/-- A key can stand before its colon; a number among them is written as a plain token. -/
theorem key_passes {key : Tree} (h : IsKey d key) :
    Passes d Leads (·.Meets [':']) [.token (part o key).text] := by
  cases h with
  | name hdata hname =>
    rw [part_text hdata.core rfl]
    exact (Passes.name hname).mono (fun _ hk => hk) fun _ hk => hk.meets _
  | string hdata hs =>
    rw [part_text hdata.core rfl]
    obtain ⟨hgenuine, hfree, hhead⟩ := free_stringLit hs
    exact .written rfl hgenuine (fun _ hk => hk.meets hhead) (hfree.meets _)
  | @number _ _ s hdata hs =>
    rw [part_text hdata.core rfl]
    obtain ⟨-, hopens, -⟩ := number_lexeme hs
    refine .written rfl (genuine_plain hs) (fun _ hk => hk.meets (headsOperand_number hopens)) ?_
    have hcolon : Literal.touchesNumber ':' = false := by decide
    rintro _ ⟨rfl⟩ hglues
    simp [Written.glues, Lexer.glues, hopens, hcolon] at hglues

theorem pair_passes {pair : Tree × Tree} (hkey : IsKey d pair.1) (hvalue : ExprFlows d o pair.2) :
    Passes d Leads Ended (pairSteps o pair) := by
  have hsign : IsSign d .colon none := isSign_everywhere (by decide)
  have hcolon : Passes d (·.Meets [':']) Free [.token (signText .colon none)] :=
    .sign hsign (fun _ hk => hk) (free_of_sign hsign (.inl (by decide)))
  have hrest : Passes d Free Ended (.space :: exprAt o pair.2 { use := .operand Precedence.assignment }) :=
    ((hvalue.at_ended _).mono (fun _ hk => hk.leads) fun _ hk => hk).space
  exact (key_passes hkey).append (hcolon.cons hrest)

theorem flows_object {pairs : List (Tree × Tree)} (h : data.core = { tag := .objectLit })
    (hkeys : ∀ p ∈ pairs, IsKey d p.1) (hvalues : ∀ p ∈ pairs, ExprFlows d o p.2) :
    ExprFlows d o (.node id data (Tree.flatPairs pairs)) := by
  refine .of_free fun place => ?_
  rw [bareAt_object h]
  refine .within .openBrace (Passes.separated_or fun x hx => ?_) .closeBrace
  obtain ⟨p, hp, rfl⟩ := List.mem_map.mp hx
  exact pair_passes (hkeys p hp) (hvalues p hp)

/-! ### Functions -/

theorem functionAt_passes {f : FunctionData} {role : FunctionRole} {body : Tree}
    (hf : IsFunction d f role body) (hbody : Passes d Ended Free (statementAt o body .block)) :
    Passes d Leads Free (functionAt o f body) := by
  have hword : IsSign d .kwFunction none := isSign_everywhere (by decide)
  have hopens : opensWord (signText .kwFunction none).toList = true :=
    keyword_opens (by decide)
  have hfunction : Passes d Leads Free [.token (signText .kwFunction none)] :=
    .opening hword (by decide) (free_of_sign hword (.inr hopens))
  have hheaded : Passes d Leads Free (.token "function" :: [f.name.elim .space .token]) := by
    cases hname : f.name with
    | none =>
      intro last ended more hlast hmore
      exact hfunction last ended (.space :: more) hlast fun k hk => hmore k hk
    | some name =>
      have hnamed := Passes.name (.inl (hf.name name hname))
      exact hfunction.append (hnamed.mono (fun _ hk => hk.leads) fun _ hk => hk)
  have hparams : Passes d Free Free
      (.token "(" :: separated (f.params.map fun p => [.token p]) ++ [.token ")"]) := by
    refine .within (Passes.openParen.mono (fun _ hk => hk.leads) fun _ hk => hk)
      (Passes.separated_or fun x hx => ?_) .closeParen
    obtain ⟨p, hp, rfl⟩ := List.mem_map.mp hx
    exact (Passes.name (.inl (hf.params p hp))).mono (fun _ hk => hk) fun _ hk => hk.ended
  have hblock : Passes d Free Free (.space :: statementAt o body .block) :=
    (hbody.mono (fun _ hk => hk.ended) fun _ hk => hk).space
  have hall := hheaded.append (hparams.append hblock)
  simpa [functionAt] using hall

theorem flows_function {f : FunctionData} {body : Tree}
    (h : data.core = { tag := .kwFunction, payload := .function f })
    (hf : IsFunction d f .expression body) (hbody : Passes d Ended Free (statementAt o body .block)) :
    ExprFlows d o (.node id data [body]) := by
  refine .of_free fun place => ?_
  rw [bareAt_function h]
  exact functionAt_passes hf hbody

/-! ### Operations -/

theorem flows_unary {operator : Tag} (h : data.core = { tag := .unary, datum := some operator })
    (hop : IsUnary d operator) (hleft : ExprFlows d o left) : ExprFlows d o (.node id data [left]) := by
  have htag : data.tag = .unary := congrArg Core.tag h
  obtain ⟨tag, mark, hsign, htext, hunary⟩ := hop.sign
  have hsorts : ∀ s ∈ signs, (Grammar.unaryOperator? (Sym.mk s.1 s.2 none).token).isSome →
      s.1 ∈ operandSigns ∧ s.1 ≠ .dot := by
    decide
  obtain ⟨hoperand, hdot⟩ := hsorts (tag, mark) (isSign_listed hsign) (by rw [hunary]; rfl)
  refine .of_loose (fun place => ?_) (precedence_loose htag (by decide))
  rw [bareAt_unary h, ← htext]
  exact (Passes.opening hsign hoperand (leads_of_sign hsign hdot)).cons (hleft.at_ended _)

theorem flows_step {tag : Tag} {after : Bool} (h : data.core = { tag := tag, postfixForm := after })
    (ht : tag = .increment ∨ tag = .decrement) (hleft : ExprFlows d o left) :
    ExprFlows d o (.node id data [left]) := by
  have htag : data.tag = tag := congrArg Core.tag h
  have hsign : IsSign d tag none := by rcases ht with rfl | rfl <;> exact isSign_everywhere (by decide)
  have hspelled : signText tag none = tag.spelling := by rcases ht with rfl | rfl <;> rfl
  have hoperand : tag ∈ operandSigns := by rcases ht with rfl | rfl <;> decide
  have hdot : tag ≠ .dot := by rcases ht with rfl | rfl <;> decide
  refine .of_loose (fun place => ?_) ?_
  · rw [bareAt_step h ht, ← hspelled]
    split
    · have hstep : Passes d Ended Ended [.token (signText tag none)] := by
        refine .sign hsign (fun _ hk => hk.meets (sign_head hsign hdot))
          (free_of_sign hsign (.inl ?_)).ended
        rcases ht with rfl | rfl <;> decide
      exact (hleft.at_ended _).append hstep
    · exact (Passes.opening hsign hoperand (leads_of_sign hsign hdot)).cons (hleft.at_ended _)
  · exact precedence_loose htag (by rcases ht with rfl | rfl <;> decide)

theorem flows_assign {operator : Option Tag} (h : data.core = { tag := .assign, datum := operator })
    (hsign : IsSign d .assign operator) (hleft : ExprFlows d o left) (hright : ExprFlows d o right) :
    ExprFlows d o (.node id data [left, right]) := by
  have htag : data.tag = .assign := congrArg Core.tag h
  have hspelled : operator.elim "" Tag.spelling ++ "=" = signText .assign operator := rfl
  refine .of_loose (fun place => ?_) (precedence_loose htag (by decide))
  rw [bareAt_assign h, hspelled]
  exact infixed_passes (hleft.at_ended _) hsign (by decide) (hright.at_ended _)

theorem flows_conditional {test : Tree} (h : data.core = { tag := .question })
    (htest : ExprFlows d o test) (hleft : ExprFlows d o left) (hright : ExprFlows d o right) :
    ExprFlows d o (.node id data [test, left, right]) := by
  have htag : data.tag = .question := congrArg Core.tag h
  have hquestion : "?" = signText .question none := rfl
  have hcolon : ":" = signText .colon none := rfl
  refine .of_loose (fun place => ?_) (precedence_loose htag (by decide))
  rw [bareAt_conditional h, hquestion, hcolon]
  have hbranches := infixed_passes (hleft.at_ended (place.next Precedence.assignment))
    (isSign_everywhere (by decide) : IsSign d .colon none) (by decide)
    (hright.at_ended (place.next Precedence.assignment))
  exact infixed_passes (htest.at_ended _) (isSign_everywhere (by decide)) (by decide) hbranches

theorem flows_comma (h : data.core = { tag := .comma }) (hleft : ExprFlows d o left)
    (hright : ExprFlows d o right) : ExprFlows d o (.node id data [left, right]) := by
  have htag : data.tag = .comma := congrArg Core.tag h
  refine .of_loose (fun place => ?_) (precedence_loose htag (by decide))
  rw [bareAt_comma h]
  have hrest : Passes d Free Ended (.space :: exprAt o right (place.next Precedence.assignment)) :=
    ((hright.at_ended _).mono (fun _ hk => hk.leads) fun _ hk => hk).space
  exact (hleft.at_ended _).append (Passes.comma.cons hrest)

theorem flows_binary {tag : Tag} {datum : Option Tag} (h : data.core = { tag := tag, datum := datum })
    (hop : IsBinary d tag datum) (hleft : ExprFlows d o left) (hright : ExprFlows d o right) :
    ExprFlows d o (.node id data [left, right]) := by
  have htag : data.tag = tag := congrArg Core.tag h
  obtain ⟨level, hl⟩ := hop.level
  obtain ⟨sign, mark, hsign, htext, hbinary⟩ := hop.sign
  have hdot : sign ≠ .dot := by
    rintro rfl
    simp [Grammar.binaryOperator?, Sym.token, Tag.binaryPrecedence?] at hbinary
  refine .of_loose (fun place => ?_) ?_
  · rw [bareAt_binary h hl, ← htext]
    exact infixed_passes (hleft.at_ended _) hsign hdot (hright.at_ended _)
  · rw [Tree.data, precedence_binary htag hl]
    exact Nat.lt_of_le_of_lt (binaryLevel_bounds hl).2 (by decide)

/-! ### Accesses and calls -/

theorem arguments_passes {args : List Tree} (hall : ∀ t ∈ args, ExprFlows d o t) :
    Passes d Free Free (argumentSteps (args.map (part o))) := by
  refine .within (Passes.openParen.mono (fun _ hk => hk.leads) fun _ hk => hk)
    (Passes.separated_or fun x hx => ?_) .closeParen
  obtain ⟨p, hp, rfl⟩ := List.mem_map.mp hx
  obtain ⟨t, ht, rfl⟩ := List.mem_map.mp hp
  exact (hall t ht).at_ended _

theorem flows_call {callee : Tree} {args : List Tree} (h : data.core = { tag := .call })
    (hcallee : ExprFlows d o callee) (hall : ∀ t ∈ args, ExprFlows d o t) :
    ExprFlows d o (.node id data (callee :: args)) := by
  refine .of_free fun place => ?_
  rw [bareAt_call h]
  exact (hcallee.at_free (.inl rfl)).append (arguments_passes hall)

theorem flows_construct {callee : Tree} {args : List Tree} (h : data.core = { tag := .kwNew })
    (hcallee : ExprFlows d o callee) (hall : ∀ t ∈ args, ExprFlows d o t) :
    ExprFlows d o (.node id data (callee :: args)) := by
  have hsign : IsSign d .kwNew none := isSign_everywhere (by decide)
  have hopens : opensWord (signText .kwNew none).toList = true :=
    keyword_opens (by decide)
  have hsigned : Passes d Leads Free [.token (signText .kwNew none)] :=
    .opening hsign (by decide) (free_of_sign hsign (.inr hopens))
  have hnew : Passes d Leads Free [.token "new"] := hsigned
  refine .of_free fun place => ?_
  rw [bareAt_construct h]
  have hcall : Passes d Leads Free (exprAt o callee { use := .callee, noIn := place.noIn }) :=
    hcallee.at_free (.inr rfl)
  have hhead := hnew.cons (hcall.mono (fun _ hk => hk.leads) fun _ hk => hk)
  split
  · simpa using hhead
  · exact hhead.append (arguments_passes hall)

theorem flows_property {s : String} (h : data.core = { tag := .getProp })
    (hname : IsNamed (fun s => IsName d s ∨ IsReserved d s) s right) (hleft : ExprFlows d o left) :
    ExprFlows d o (.node id data [left, right]) := by
  have hok : IsName d s ∨ IsReserved d s := by
    obtain ⟨-, hok⟩ := hname
    exact hok
  refine .of_free fun place => ?_
  rw [bareAt_property h hname]
  exact (hleft.at_free (.inl rfl)).append (.point hok)

theorem flows_index (h : data.core = { tag := .getElem }) (hleft : ExprFlows d o left)
    (hright : ExprFlows d o right) : ExprFlows d o (.node id data [left, right]) := by
  refine .of_free fun place => ?_
  rw [bareAt_index h]
  have hopen : Passes d Free Free [.token "["] :=
    Passes.openBracket.mono (fun _ hk => hk.leads) fun _ hk => hk
  have hindex := Passes.within hopen (.inr (hright.at_ended { use := .operand Precedence.comma }))
    Passes.closeBracket
  have hobject : Passes d Leads Free (exprAt o left (place.lead .object)) :=
    hleft.at_free (.inl rfl)
  have hall := hobject.append hindex
  simpa using hall

end Render
end ScriptPress
