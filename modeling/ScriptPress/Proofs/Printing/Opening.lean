import ScriptPress.Proofs.Printing.StatementFlow

/-! # How expressions and statements begin

The first token of what is written of an expression is one that an operand begins with, and no
prefix operator where the place binds tightly. The first token of a statement is none that ends a
list of statements or goes on with the statement before it.
-/
namespace ScriptPress
open Lexer Written
variable {d : Dialect} {o : RenderOptions} {P Q : Sym → Prop} {xs ys : List WriterStep}

/-! ## First tokens -/

theorem words_written {compact owes : Bool} {lead : Lead} {step : WriterStep} {t : Written}
    (hs : step.written? = some t) : words compact d lead owes (step :: xs)
      = owed owes t lead ++ ⟨t.sym d, lead⟩ :: words compact d false false xs := by
  cases step <;> cases hs <;> rfl

/-- A step that writes no token and ends no statement. -/
def WriterStep.isMute : WriterStep → Bool
  | .comment _ | .space | .newline | .blankLine | .indent | .outdent | .setBackLine => true
  | _ => false

/-- Instructions that begin with a genuine token of a sort. -/
def Heads (d : Dialect) (P : Sym → Prop) (xs : List WriterStep) : Prop :=
  ∃ step more t, xs = step :: more ∧ step.written? = some t ∧ t.Genuine d ∧ P (t.sym d)

namespace Heads

theorem mono (h : Heads d P xs) (hPQ : ∀ s, P s → Q s) : Heads d Q xs := by
  obtain ⟨step, more, t, hxs, hs, ht, hp⟩ := h
  exact ⟨step, more, t, hxs, hs, ht, hPQ _ hp⟩

theorem append (h : Heads d P xs) (ys : List WriterStep) : Heads d P (xs ++ ys) := by
  obtain ⟨step, more, t, rfl, hs, ht, hp⟩ := h
  exact ⟨step, more ++ ys, t, rfl, hs, ht, hp⟩

theorem lexeme {text : String} {s : Sym} (h : IsLexeme d text.toList s) (hp : P s) :
    Heads d P (.token text :: xs) := by
  have hsym : (Written.mk .plain text.toList).sym d = s := classify_of h
  exact ⟨_, xs, _, rfl, rfl, genuine_plain h, by rwa [hsym]⟩

theorem number {text : String} {s : Sym} (h : IsLexeme d text.toList s) (hp : P s) :
    Heads d P (.number text :: xs) := by
  have hsym : (Written.mk .number text.toList).sym d = s := classify_of h
  exact ⟨_, xs, _, rfl, rfl, genuine_number h, by rwa [hsym]⟩

theorem sign {tag : Tag} {datum : Option Tag} (h : IsSign d tag datum)
    (hp : P ⟨tag, datum, none⟩) : Heads d P (.token (signText tag datum) :: xs) := lexeme h hp

/-- The words begin with that of the first token, behind whatever leads to it. -/
theorem words (compact : Bool) (h : Heads d P xs) (more : List WriterStep) :
    ∃ s ws, P s ∧ ∀ lead, words compact d lead false (xs ++ more) = ⟨s, lead⟩ :: ws := by
  obtain ⟨step, rest, t, rfl, hs, ht, hp⟩ := h
  refine ⟨t.sym d, ScriptPress.words compact d false false (rest ++ more), hp, fun lead => ?_⟩
  rw [List.cons_append, words_written hs]
  rfl

end Heads

/-- Instructions whose first token is of a sort, and end no statement before it. -/
inductive Opens (d : Dialect) (P : Sym → Prop) : List WriterStep → Prop
  | heads {zs : List WriterStep} : Heads d P zs → Opens d P zs
  | skip {step : WriterStep} {zs : List WriterStep} : step.isMute = true → Opens d P zs →
      Opens d P (step :: zs)

namespace Opens

theorem mono (h : Opens d P xs) (hPQ : ∀ s, P s → Q s) : Opens d Q xs := by
  induction h with
  | heads h => exact .heads (h.mono hPQ)
  | skip hs _ ih => exact .skip hs ih

theorem append (h : Opens d P xs) (ys : List WriterStep) : Opens d P (xs ++ ys) := by
  induction h with
  | heads h => exact .heads (h.append ys)
  | skip hs _ ih => exact .skip hs ih

/-- Behind mute steps. -/
theorem behind (hys : ∀ step ∈ ys, step.isMute = true) (h : Opens d P xs) : Opens d P (ys ++ xs) := by
  induction ys with
  | nil => exact h
  | cons step ys ih =>
    exact .skip (hys step (by simp)) (ih fun step' hs' => hys step' (List.mem_cons_of_mem step hs'))

end Opens

/-- Instructions whose first token is of a sort; at most its line is set back before it. -/
def Starts (d : Dialect) (P : Sym → Prop) (xs : List WriterStep) : Prop :=
  Heads d P xs ∨ ∃ ys, xs = .setBackLine :: ys ∧ Heads d P ys

namespace Starts

theorem opens (h : Starts d P xs) : Opens d P xs := by
  rcases h with h | ⟨ys, rfl, h⟩
  · exact .heads h
  · exact .skip rfl (.heads h)

/-- The words begin with that of the first token, behind whatever leads to it. -/
theorem words (compact : Bool) (h : Starts d P xs) (more : List WriterStep) :
    ∃ s ws, P s ∧ ∀ lead, words compact d lead false (xs ++ more) = ⟨s, lead⟩ :: ws := by
  rcases h with h | ⟨ys, rfl, h⟩
  · exact h.words compact more
  · exact h.words compact more

end Starts

/-! ## Expressions -/

/-- The tags that operands begin with. -/
def operandTags : List Tag :=
  [.identifier, .number, .string, .regExp, .primary, .kwFunction, .leftBracket, .leftBrace,
   .leftParen, .kwNew]

/-- The tags of the operators in front of operands. -/
def prefixTags : List Tag := [.unary, .add, .sub, .increment, .decrement]

/-- How an expression may begin: not with a word or brace of another statement if it leads one, and
not with an operator if it binds more tightly than those. -/
structure Beginning (leads tight : Bool) (s : Sym) : Prop where
  listed : s.tag ∈ operandTags ∨ s.tag ∈ prefixTags
  leads : leads = true → s.tag ≠ .kwFunction ∧ s.tag ≠ .leftBrace
  tight : tight = true → s.tag ∈ operandTags

namespace Render
variable {t : Tree} {place : Place} {id : NodeId} {data : Node}

/-- Places for expressions that bind more tightly than the operators in front of operands. -/
def Place.isTight (place : Place) : Bool :=
  match place.use with
  | .operand level => Precedence.postfixStep ≤ level
  | _ => true

/-- An expression that needs no parentheses at its place. -/
structure Fits (t : Tree) (place : Place) : Prop where
  operand : ∀ level, place.use = .operand level → level ≤ t.data.precedence
  member : place.use = .object ∨ place.use = .callee → Precedence.member ≤ t.data.precedence
    ∧ isWholeNumber t.data = false
  callee : place.use = .callee → t.containsCall = false
  leads : place.leads = true → opensOtherStatement t.data = false
  noIn : place.noIn = true → isInOperation t.data = false

theorem fits_of_bare (h : needsParens t place = false) : Fits t place := by
  obtain ⟨use, noIn, leads⟩ := place
  simp only [needsParens, Bool.or_eq_false_iff, Bool.and_eq_false_iff] at h
  obtain ⟨⟨huse, hleads⟩, hnoIn⟩ := h
  refine ⟨?_, ?_, ?_, fun h => hleads.resolve_left (by simp_all),
    fun h => hnoIn.resolve_left (by simp_all)⟩
  · rintro level rfl
    simpa using huse
  · rintro (rfl | rfl) <;> simp_all
  · rintro rfl
    simp_all

/-- The beginning of what is written without parentheses. -/
def BareHeads (d : Dialect) (o : RenderOptions) (t : Tree) : Prop :=
  ∀ place, Heads d (Beginning (place.leads && !opensOtherStatement t.data)
    (Precedence.postfixStep ≤ t.data.precedence)) (bareAt o t place)

/-- An expression in parentheses, or one that binds tightly enough for its place. -/
theorem BareHeads.at (h : BareHeads d o t) (place : Place) :
    Heads d (Beginning place.leads place.isTight) (exprAt o t place) := by
  rw [exprAt_eq]
  split
  · have hparen : Beginning place.leads place.isTight ⟨.leftParen, none, none⟩ :=
      ⟨.inl (by decide), fun _ => by simp, fun _ => by decide⟩
    exact .sign (isSign_everywhere (by decide)) hparen
  next hparens =>
  have hfits := fits_of_bare (by simpa using hparens)
  have hmember : Precedence.postfixStep ≤ Precedence.member := by decide
  refine (h place).mono fun s hs => ⟨hs.listed, fun hleads => hs.leads ?_, fun htight => hs.tight ?_⟩
  · simp [hleads, hfits.leads hleads]
  · rw [Place.isTight] at htight
    rw [decide_eq_true_iff]
    split at htight
    · next level huse => exact Nat.le_trans (by simpa using htight) (hfits.operand level huse)
    · next hother =>
      refine Nat.le_trans hmember (hfits.member ?_).1
      cases huse : place.use with
      | operand level => exact absurd huse (hother level)
      | object => exact .inl rfl
      | callee => exact .inr rfl

section
variable {left right : Tree}

/-- A literal or a name begins with itself. -/
theorem heads_leaf {core : Core} (h : data.core = core) (hleaf : IsLeaf d core) :
    BareHeads d o (.node id data []) := by
  have hlisted : ∀ {leads tight : Bool} {s : Sym},
      s.tag ∈ [Tag.identifier, .number, .string, .regExp, .primary] → Beginning leads tight s := by
    intro leads tight s hs
    have hall : ∀ tag ∈ [Tag.identifier, .number, .string, .regExp, .primary],
        tag ∈ operandTags ∧ tag ≠ .kwFunction ∧ tag ≠ .leftBrace := by
      decide
    obtain ⟨hmem, hfunction, hbrace⟩ := hall s.tag hs
    exact ⟨.inl hmem, fun _ => ⟨hfunction, hbrace⟩, fun _ => hmem⟩
  intro place
  cases hleaf with
  | name hname =>
    rw [bareAt_identifier h]
    exact .lexeme hname (hlisted (by simp))
  | number hs =>
    rw [bareAt_number h]
    exact .number hs (hlisted (by simp))
  | string hs =>
    rw [bareAt_string h]
    split
    · exact .lexeme (isLexeme_joined hs) (hlisted (by simp))
    · exact .lexeme hs (hlisted (by simp))
  | regExp hs =>
    rw [bareAt_regExp h]
    exact ⟨_, _, _, rfl, rfl, hs, hlisted (by simp [Written.sym, Sym.pattern])⟩
  | @primary value hs =>
    have hspelled : value.spelling = signText .primary (some value) := rfl
    rw [bareAt_primary h, hspelled]
    exact .sign hs (hlisted (by simp))

/-- A bracket or keyword of an operand. -/
theorem heads_operandSign (tag : Tag) (hsign : tag ∈ everywhere) (hoperand : tag ∈ operandTags)
    {leads tight : Bool} (hleads : leads = true → tag ≠ .kwFunction ∧ tag ≠ .leftBrace) :
    Heads d (Beginning leads tight) (.token (signText tag none) :: xs) :=
  .sign (isSign_everywhere hsign) ⟨.inl hoperand, hleads, fun _ => hoperand⟩

/-- An operator in front of an operand that binds less tightly than what stands behind one. -/
theorem heads_prefix {tag : Tag} {datum : Option Tag} (hsign : IsSign d tag datum)
    (ht : tag ∈ prefixTags) (hloose : data.precedence < Precedence.postfixStep) {leads : Bool} :
    Heads d (Beginning leads (Precedence.postfixStep ≤ data.precedence))
      (.token (signText tag datum) :: xs) := by
  have hall : ∀ tag ∈ prefixTags, tag ≠ .kwFunction ∧ tag ≠ .leftBrace := by decide
  exact .sign hsign ⟨.inr ht, fun _ => hall tag ht, fun h => by simp at h; omega⟩

/-- A part that leads an expression begins as the expression has to. -/
theorem heads_lead {use : Use} {leads tight : Bool} (h : BareHeads d o left) (place : Place)
    (hleads : leads = true → place.leads = true)
    (htight : tight = true → (place.lead use).isTight = true) :
    Heads d (Beginning leads tight) (exprAt o left (place.lead use) ++ ys) :=
  ((h.at (place.lead use)).mono fun _ hs =>
    ⟨hs.listed, fun h => hs.leads (hleads h), fun h => hs.tight (htight h)⟩).append ys

/-- The expressions that begin with a part of theirs. -/
theorem heads_of_left {children : List Tree} (use : Use) (h : BareHeads d o left)
    (htight : Precedence.postfixStep ≤ data.precedence → ∀ place : Place,
      (place.lead use).isTight = true)
    (hsteps : ∀ place, ∃ ys, bareAt o (.node id data children) place
      = exprAt o left (place.lead use) ++ ys) : BareHeads d o (.node id data children) := by
  intro place
  obtain ⟨ys, hys⟩ := hsteps place
  rw [hys]
  refine heads_lead h place (fun h => ?_) fun h => htight (of_decide_eq_true h) place
  simp only [Bool.and_eq_true] at h
  exact h.1

end

end Render

open Render
variable {t : Tree}

/-- How every expression begins. -/
theorem Formed.bareHeads (t : Tree) (h : Formed d .expr t) : BareHeads d o t := by
  induction t using Tree.induction with
  | node id data children ih =>
    cases h with
    | leaf hdata hleaf => exact heads_leaf hdata.core hleaf
    | array hdata =>
      intro place
      rw [bareAt_array hdata.core]
      exact heads_operandSign .leftBracket (by decide) (by decide) fun _ => by simp
    | object hdata =>
      have htag : data.tag = .objectLit := congrArg Core.tag hdata.core
      intro place
      rw [bareAt_object hdata.core]
      refine heads_operandSign .leftBrace (by decide) (by decide) fun h => ?_
      simp [opensOtherStatement, Tree.data, htag] at h
    | function hdata =>
      have htag : data.tag = .kwFunction := congrArg Core.tag hdata.core
      intro place
      rw [bareAt_function hdata.core]
      refine heads_operandSign .kwFunction (by decide) (by decide) fun h => ?_
      simp [opensOtherStatement, Tree.data, htag] at h
    | unary hdata hop =>
      have htag : data.tag = .unary := congrArg Core.tag hdata.core
      obtain ⟨tag, mark, hsign, htext, hunary⟩ := hop.sign
      have hprefix : tag ∈ prefixTags := by
        simp only [Grammar.unaryOperator?, Sym.token] at hunary
        split at hunary <;> simp_all [prefixTags]
      intro place
      rw [bareAt_unary hdata.core, ← htext]
      refine heads_prefix hsign hprefix ?_
      simp [Tree.data, Node.precedence, htag]
    | @step _ _ tag after operand hdata ht hassignable hoperand =>
      have htag : data.tag = tag := congrArg Core.tag hdata.core
      have hform : data.properties.flag .postfixForm = after := congrArg Core.postfixForm hdata.core
      have hprecedence : data.precedence
          = if after then Precedence.postfixStep else Precedence.unary := by
        rcases ht with rfl | rfl <;> simp [Node.precedence, htag, hform]
      cases after with
      | true =>
        exact heads_of_left (.operand Precedence.member) (ih operand (by simp) hoperand)
          (fun _ _ => rfl) fun place => ⟨_, (bareAt_step hdata.core ht).trans (if_pos rfl)⟩
      | false =>
        have hsign : IsSign d tag none := by
          rcases ht with rfl | rfl <;> exact isSign_everywhere (by decide)
        have hspelled : signText tag none = tag.spelling := by rcases ht with rfl | rfl <;> rfl
        intro place
        rw [bareAt_step hdata.core ht, if_neg (by simp), ← hspelled]
        refine heads_prefix hsign (by rcases ht with rfl | rfl <;> decide) ?_
        rw [Tree.data, hprecedence]
        decide
    | @assign _ _ operator target value hdata hsign hassignable htarget hvalue =>
      exact heads_of_left (.operand Precedence.member) (ih target (by simp) htarget)
        (fun _ _ => rfl) fun place => ⟨_, bareAt_assign hdata.core⟩
    | @conditional _ _ test yes no hdata htest hyes hno =>
      have htag : data.tag = .question := congrArg Core.tag hdata.core
      refine heads_of_left (.operand Precedence.or) (ih test (by simp) htest) (fun h => ?_)
        fun place => ⟨_, bareAt_conditional hdata.core⟩
      simp only [Node.precedence, htag] at h
      exact absurd h (by decide)
    | @binary _ _ tag datum left right hdata hop hleft hright =>
      have htag : data.tag = tag := congrArg Core.tag hdata.core
      obtain ⟨level, hl⟩ := hop.level
      refine heads_of_left (.operand level) (ih left (by simp) hleft) (fun h => ?_)
        fun place => ⟨_, bareAt_binary hdata.core hl⟩
      rw [precedence_binary htag hl] at h
      have hbound := (binaryLevel_bounds hl).2
      have hlt : Precedence.multiplicative < Precedence.postfixStep := by decide
      omega
    | @comma _ _ left right hdata hleft hright =>
      have htag : data.tag = .comma := congrArg Core.tag hdata.core
      refine heads_of_left (.operand Precedence.comma) (ih left (by simp) hleft) (fun h => ?_)
        fun place => ⟨_, bareAt_comma hdata.core⟩
      simp only [Node.precedence, htag] at h
      exact absurd h (by decide)
    | @call _ _ callee args hdata hcallee =>
      exact heads_of_left (.object) (ih callee (by simp) hcallee) (fun _ _ => rfl)
        fun place => ⟨_, bareAt_call hdata.core⟩
    | construct hdata =>
      intro place
      rw [bareAt_construct hdata.core]
      exact heads_operandSign .kwNew (by decide) (by decide) fun _ => by simp
    | @property _ _ object s name hdata hobject hname =>
      exact heads_of_left (.object) (ih object (by simp) hobject) (fun _ _ => rfl)
        fun place => ⟨_, bareAt_property hdata.core hname⟩
    | @index _ _ object index hdata hobject hindex =>
      exact heads_of_left (.object) (ih object (by simp) hobject) (fun _ _ => rfl)
        fun place => ⟨_, by rw [bareAt_index hdata.core, List.append_assoc]⟩

/-- How an expression begins at its place. -/
theorem Formed.heads (h : Formed d .expr t) (place : Place) :
    Heads d (Beginning place.leads place.isTight) (exprAt o t place) :=
  (Formed.bareHeads t h).at place

/-! ## Statements -/

/-- The tags that statements begin with. -/
def statementTags : List Tag :=
  operandTags ++ prefixTags ++ [.semicolon, .kwVar, .kwIf, .kwWhile, .kwDo, .kwFor, .kwBreak,
    .kwContinue, .kwReturn, .kwWith, .kwSwitch, .kwThrow, .kwTry]

/-- The roles of whole statements. -/
def Render.Role.isStatement : Role → Bool
  | .listed _ | .body | .otherwise => true
  | _ => false

section
variable {ctx : Ctx} {top : Bool} {role : Role}

theorem opens_sign (tag : Tag) {datum : Option Tag} (hsign : IsSign d tag datum)
    (h : P ⟨tag, datum, none⟩) : Opens d P (.token (signText tag datum) :: xs) :=
  .heads (.sign hsign h)

/-- How a statement begins, behind its comments. Before a label, and only there, the line is set
back. -/
theorem Formed.starts_or_label (h : Formed d (.statement ctx top) t) :
    Heads d (·.tag ∈ statementTags) (bareSteps o t)
      ∨ t.tag = .label ∧ ∃ ys, bareSteps o t = .setBackLine :: ys
        ∧ Heads d (·.tag ∈ statementTags) ys := by
  have hsign : ∀ {xs} {Q : Prop} (tag : Tag), IsSign d tag none → tag ∈ statementTags →
      Heads d (·.tag ∈ statementTags) (.token (signText tag none) :: xs) ∨ Q :=
    fun tag htag ht => .inl (.sign htag ht)
  have hword : ∀ {xs} {Q : Prop} (tag : Tag), tag ∈ everywhere → tag ∈ statementTags →
      Heads d (·.tag ∈ statementTags) (.token (signText tag none) :: xs) ∨ Q :=
    fun tag htag ht => hsign tag (isSign_everywhere htag) ht
  cases h with
  | functionStatement hdata =>
    rw [bareSteps_function hdata.core]
    exact hword .kwFunction (by decide) (by decide)
  | blockStatement hdata =>
    rw [bareSteps_block hdata.core]
    exact hword .leftBrace (by decide) (by decide)
  | var hdata =>
    rw [bareSteps_var hdata.core]
    exact hword .kwVar (by decide) (by decide)
  | empty hdata =>
    have hsign : IsSign d .semicolon none := isSign_everywhere (by decide)
    have hsym : (Written.mk .plain [';']).sym d = ⟨.semicolon, none, none⟩ := classify_of hsign
    rw [bareSteps_empty hdata.core]
    refine .inl ⟨_, _, _, rfl, rfl, genuine_plain hsign, ?_⟩
    rw [hsym]
    decide
  | ifThen hdata | ifElse hdata =>
    rw [bareSteps_if hdata.core]
    exact hword .kwIf (by decide) (by decide)
  | «while» hdata =>
    rw [bareSteps_while hdata.core]
    exact hword .kwWhile (by decide) (by decide)
  | doWhile hdata htag =>
    rw [bareSteps_do hdata.core]
    exact hsign .kwDo htag (by decide)
  | «for» hdata =>
    rw [bareSteps_for hdata.core]
    exact hword .kwFor (by decide) (by decide)
  | forIn hdata =>
    rw [bareSteps_forIn hdata.core]
    exact hword .kwFor (by decide) (by decide)
  | jump hdata ht =>
    rw [bareSteps_keyword hdata.core (ht.elim .inl fun ht => .inr (.inl ht))]
    rcases ht with rfl | rfl
    · exact hword .kwBreak (by decide) (by decide)
    · exact hword .kwContinue (by decide) (by decide)
  | jumpTo hdata ht _ hname =>
    rw [bareSteps_jump hdata.core ht hname]
    rcases ht with rfl | rfl
    · exact hword .kwBreak (by decide) (by decide)
    · exact hword .kwContinue (by decide) (by decide)
  | «return» hdata =>
    rw [bareSteps_keyword hdata.core (.inr (.inr rfl))]
    exact hword .kwReturn (by decide) (by decide)
  | returnValue hdata =>
    rw [bareSteps_value hdata.core (.inl rfl)]
    exact hword .kwReturn (by decide) (by decide)
  | throw hdata htag =>
    rw [bareSteps_value hdata.core (.inr rfl)]
    exact hsign .kwThrow htag (by decide)
  | «with» hdata =>
    rw [bareSteps_with hdata.core]
    exact hword .kwWith (by decide) (by decide)
  | switch hdata htag =>
    rw [bareSteps_switch hdata.core]
    exact hsign .kwSwitch htag (by decide)
  | «try» hdata htag =>
    rw [bareSteps_try hdata.core]
    exact hsign .kwTry htag (by decide)
  | label hdata hname =>
    have hok := hname
    obtain ⟨-, hok⟩ := hok
    rw [bareSteps_label hdata.core hname]
    exact .inr ⟨congrArg Core.tag hdata.core, _, rfl,
      .lexeme hok (by simp [statementTags, operandTags])⟩
  | exprStatement hdata hvalue =>
    have hall : ∀ tag, tag ∈ operandTags ∨ tag ∈ prefixTags → tag ∈ statementTags :=
      fun tag h => List.mem_append_left _ (List.mem_append.mpr h)
    rw [bareSteps_expr hdata.core]
    exact .inl (((hvalue.heads _).append _).mono fun _ hs => hall _ hs.listed)

theorem Formed.starts (h : Formed d (.statement ctx top) t) :
    Starts d (·.tag ∈ statementTags) (bareSteps o t) := h.starts_or_label.imp_right And.right

theorem Formed.opens (h : Formed d (.statement ctx top) t) :
    Opens d (·.tag ∈ statementTags) (bareSteps o t) := h.starts.opens

theorem mute_comments (kind : PropertyKind) (n : Node) :
    ∀ step ∈ commentSteps o kind n, step.isMute = true := by
  rw [commentSteps]
  split
  · intro step hs
    obtain ⟨text, -, rfl⟩ := List.mem_map.mp hs
    rfl
  · simp

theorem mute_gap (first : Bool) : ∀ step ∈ labelGap o first, step.isMute = true := by
  rw [labelGap]
  split
  · simp [WriterStep.isMute]
  · simp

/-- The steps before a statement of a list. -/
def listedLead (o : RenderOptions) (t : Tree) (first : Bool) : List WriterStep :=
  .newline :: (if t.tag == .label then labelGap o first else []) ++ leadingComments o t.data

theorem mute_listedLead (t : Tree) (first : Bool) :
    ∀ step ∈ listedLead o t first, step.isMute = true := by
  intro step hs
  simp only [listedLead, List.mem_append, List.mem_cons] at hs
  rcases hs with (rfl | hs) | hs
  · rfl
  · split at hs
    · exact mute_gap first step hs
    · cases hs
  · exact mute_comments .comments _ step hs

/-- How a statement begins in its role. -/
theorem Formed.opens_at (h : Formed d (.statement ctx top) t) (hr : role.isStatement = true) :
    Opens d (·.tag ∈ statementTags) (statementAt o t role) := by
  have hbare : Opens d (·.tag ∈ statementTags) (bareSteps o t) := h.opens
  have hlisted : ∀ first, Opens d (·.tag ∈ statementTags) (statementAt o t (.listed first)) := by
    intro first
    rw [statementAt_listed]
    exact hbare.behind (mute_listedLead t first)
  have hbody : Opens d (·.tag ∈ statementTags) (statementAt o t .body) := by
    rw [statementAt_body]
    split
    · have hbrace : IsSign d .leftBrace none := isSign_everywhere (by decide)
      exact .skip rfl (opens_sign .leftBrace hbrace (by decide))
    · exact .skip rfl ((hlisted true).append [.outdent])
  cases role with
  | listed first => exact hlisted first
  | body => exact hbody
  | otherwise =>
    rw [statementAt_otherwise]
    split
    · next hif =>
      rw [← bareSteps_ofIf (by simpa using hif)]
      exact .behind (mute_comments .comments _) (.skip rfl hbare)
    · exact hbody
  | _ => cases hr

/-- A clause begins with its keyword. -/
theorem Formed.opens_clause (h : Formed d (.clause ctx) t) (first : Bool) :
    Opens d (fun s => s.tag = .kwCase ∨ s.tag = .kwDefault)
      (statementAt o t (.switchClause first)) := by
  have hlead : ∀ n step, step ∈ clauseLead o n first → step.isMute = true := by
    intro n step hs
    simp only [clauseLead, List.mem_append, List.mem_cons, List.not_mem_nil, or_false] at hs
    rcases hs with ((rfl | hs) | hs) | rfl
    · rfl
    · exact mute_gap first step hs
    · exact mute_comments .comments _ step hs
    · rfl
  cases h with
  | case hdata hsign =>
    rw [statementAt_case hdata.core, List.append_assoc]
    exact .behind (hlead _) (opens_sign .kwCase hsign (.inl rfl))
  | default hdata hsign =>
    rw [statementAt_default hdata.core]
    exact .behind (hlead _) (opens_sign .kwDefault hsign (.inr rfl))

/-- A handler begins with its keyword. -/
theorem Formed.opens_handler {tag : Tag} (h : Formed d (.handler ctx tag) t) :
    Opens d (·.tag = tag) (statementAt o t .tryClause) := by
  cases h with
  | «catch» hdata hsign hname =>
    rw [statementAt_catch hdata.core hname]
    exact opens_sign .kwCatch hsign rfl
  | guarded hdata hsign _ hname =>
    rw [statementAt_guarded hdata.core hname]
    exact opens_sign .kwCatch hsign rfl
  | «finally» hdata hsign =>
    rw [statementAt_finally hdata.core]
    exact opens_sign .kwFinally hsign rfl

end
end ScriptPress
