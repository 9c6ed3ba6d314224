import ScriptPress.Proofs.Printing.Flow

/-! # What is written of statements flows

Statements begin and end with tokens that everything may stand beside, in whatever role they are
written. By induction over well-formed trees, what is written of a whole script flows.
-/
namespace ScriptPress
open Lexer Written
variable {d : Dialect} {o : RenderOptions} {t : Tree} {id : NodeId} {data : Node}

/-- Expressions have tags that no statement and no hole has. -/
theorem Formed.expr_tag (h : Formed d .expr t) :
    t.tag ≠ .empty ∧ t.tag ≠ .kwVar ∧ t.tag ≠ .kwCase ∧ t.tag ≠ .kwDefault := by
  cases h with
  | leaf hdata hleaf =>
    have htag := congrArg Core.tag hdata.core
    cases hleaf <;> simp_all [Node.core, Tree.tag, Tree.data]
  | binary hdata hop =>
    have htag := congrArg Core.tag hdata.core
    obtain ⟨level, hl⟩ := hop.level
    refine ⟨?_, ?_, ?_, ?_⟩ <;> rintro ht <;>
      simp_all [Node.core, Tree.tag, Tree.data, Tag.binaryPrecedence?]
  | step hdata ht =>
    have htag := congrArg Core.tag hdata.core
    rcases ht with rfl | rfl <;> simp_all [Node.core, Tree.tag, Tree.data]
  | array hdata | object hdata | function hdata | unary hdata | assign hdata | conditional hdata
  | comma hdata | call hdata | construct hdata | property hdata | index hdata =>
    have htag := congrArg Core.tag hdata.core
    simp_all [Node.core, Tree.tag, Tree.data]

namespace Render

/-! ## Single tokens -/

/-- A keyword in front of a statement or a part of one. -/
theorem keyword_passes {tag : Tag} {word : String} (h : IsSign d tag none)
    (hs : signText tag none = word) (hw : opensWord (signText tag none).toList = true) :
    Passes d Free Free [.token word] := by
  have hword : Passes d Free Free [.token (signText tag none)] :=
    (Passes.keyword tag h hw).mono (fun _ hk => hk.ended) fun _ hk => hk
  rwa [hs] at hword

/-- A brace where a statement may begin. -/
theorem brace_passes : Passes d Ended Free [.token "\x7b"] := by
  have hsign : IsSign d .leftBrace none := isSign_everywhere (by decide)
  have hbrace : Passes d Ended Free [.token (signText .leftBrace none)] :=
    .sign hsign (fun _ hk => hk.meets (sign_head hsign (by decide)))
      (free_of_sign hsign (.inl (by decide)))
  exact hbrace

/-- Steady instructions up to the brace that closes them. -/
theorem closed_passes {steps : List WriterStep} (h : Steady d steps) :
    Passes d Free Free (steps ++ [.token "\x7d"]) := by
  have hsign : IsSign d .rightBrace none := isSign_everywhere (by decide)
  have hclosed : Passes d Free Free (steps ++ [.token (signText .rightBrace none)]) :=
    h.closed rfl (genuine_sign hsign) (free_of_sign hsign (.inl (by decide)))
  exact hclosed

/-- A name where a statement may begin. -/
theorem name_passes {s : String} (h : IsName d s) : Passes d Free Free [.token s] :=
  (Passes.name (.inl h)).mono (fun _ hk => hk.leads) fun _ hk => hk

/-- An expression between signs. -/
theorem ExprFlows.between (h : ExprFlows d o t) (place : Place) :
    Passes d Free Ended (exprAt o t place) :=
  (h.at_ended place).mono (fun _ hk => hk.leads) fun _ hk => hk

/-! ## Comments, lists and blocks -/

theorem comments_steady (kind : PropertyKind)
    (h : ∀ c ∈ data.properties.texts kind, Gap.IsComment c.toList) :
    Steady d (commentSteps o kind data) := by
  rw [commentSteps]
  split
  · exact .comments h
  · exact .nil

theorem gap_steady (first : Bool) : Steady d (labelGap o first) := by
  rw [labelGap]
  split
  · exact .skip rfl (by simp) .nil
  · exact .nil

/-- What is written of a statement, in each of its roles. -/
structure StatementFlows (d : Dialect) (o : RenderOptions) (t : Tree) : Prop where
  listed : ∀ first, Steady d (statementAt o t (.listed first))
  body : Steady d (statementAt o t .body)
  otherwise : Steady d (statementAt o t .otherwise)

theorem listed_steady {parts : List Tree} (hall : ∀ t ∈ parts, StatementFlows d o t) :
    Steady d (listedAt o parts) := by
  cases parts with
  | nil => exact .nil
  | cons t parts =>
    refine ((hall t (by simp)).listed true).append (.flatMap fun t' ht' => ?_)
    exact (hall t' (List.mem_cons_of_mem t ht')).listed false

/-- What stands between the braces of a block, and the closing brace. -/
theorem blockRest_passes {parts : List Tree}
    (htrailing : ∀ c ∈ data.trailing, Gap.IsComment c.toList)
    (hall : ∀ t ∈ parts, StatementFlows d o t) :
    Passes d Free Free (blockRest o data (parts.map (part o))) := by
  have hinner : Steady d (listedAt o parts ++ trailingComments o data ++ [.outdent, .newline]) :=
    ((listed_steady hall).append (comments_steady .trailingComments htrailing)).append
      (.skip rfl (by simp) (.skip rfl (by simp) .nil))
  rw [blockRest, listed_eq]
  simpa using closed_passes hinner

theorem block_passes {parts : List Tree}
    (htrailing : ∀ c ∈ data.trailing, Gap.IsComment c.toList)
    (hall : ∀ t ∈ parts, StatementFlows d o t) :
    Passes d Ended Free (blockSteps o data (parts.map (part o))) :=
  brace_passes.cons (.skip rfl (by simp) (blockRest_passes htrailing hall))

/-- A block as a body, with the comments before its brace inside. -/
theorem bodyBlock_passes {parts : List Tree} (hdata : data.Closed { tag := .block })
    (hall : ∀ t ∈ parts, StatementFlows d o t) :
    Passes d Ended Free (bodySteps o data (parts.map (part o))) := by
  have hcomments : Steady d (leadingComments o data) := comments_steady .comments hdata.leading
  have hrest := blockRest_passes (o := o) hdata.trailing hall
  have hinner : Passes d Free Free
      (leadingComments o data ++ blockRest o data (parts.map (part o))) := by
    intro last ended more hlast hmore
    rw [List.append_assoc]
    exact hcomments last ended _ hlast fun last' ended' hlast' => hrest last' ended' more hlast' hmore
  exact brace_passes.cons (.skip rfl (by simp) hinner)

/-! ## Roles -/

namespace StatementFlows

theorem listed_of_bare (hleading : ∀ c ∈ t.data.leading, Gap.IsComment c.toList)
    (hbare : Steady d (bareSteps o t)) (first : Bool) :
    Steady d (statementAt o t (.listed first)) := by
  have hgap : Steady d (if t.tag == .label then labelGap o first else []) := by
    split
    · exact gap_steady first
    · exact .nil
  rw [statementAt_listed]
  exact .skip rfl (by simp) ((hgap.append (comments_steady .comments hleading)).append hbare)

/-- The roles of a statement that is no block. -/
theorem of_bare (hleading : ∀ c ∈ t.data.leading, Gap.IsComment c.toList)
    (hblock : t.tag ≠ .block) (hbare : Steady d (bareSteps o t)) : StatementFlows d o t := by
  have hlisted := listed_of_bare hleading hbare
  have hbody : Steady d (statementAt o t .body) := by
    rw [statementAt_body, if_neg (by simpa using hblock)]
    exact .skip rfl (by simp) ((hlisted true).append (.skip rfl (by simp) .nil))
  refine ⟨hlisted, hbody, ?_⟩
  rw [statementAt_otherwise]
  split
  · next hif =>
    rw [← bareSteps_ofIf (by simpa using hif)]
    exact (comments_steady .comments hleading).append (.skip rfl (by simp) hbare)
  · exact hbody

theorem of_block {parts : List Tree} (hdata : data.Closed { tag := .block })
    (hall : ∀ t ∈ parts, StatementFlows d o t) : StatementFlows d o (.node id data parts) := by
  have htag : (Tree.node id data parts).tag = .block := congrArg Core.tag hdata.core
  have hblock := block_passes (o := o) hdata.trailing hall
  have hbare : Steady d (bareSteps o (.node id data parts)) := by
    rw [bareSteps_block hdata.core]
    exact .after (hblock.mono (fun _ hk => hk.ended) fun _ hk => hk) (.skip rfl (by simp) .nil)
  have hbody : Steady d (statementAt o (.node id data parts) .body) := by
    have hpasses := bodyBlock_passes (o := o) hdata hall
    rw [statementAt_body, if_pos (by simp [htag])]
    exact .skip rfl (by simp) (.of_passes (hpasses.mono (fun _ hk => hk.ended) fun _ hk => hk))
  refine ⟨listed_of_bare hdata.leading hbare, hbody, ?_⟩
  rw [statementAt_otherwise, if_neg (by simp [htag])]
  exact hbody

end StatementFlows

/-! ## Headers -/

section
variable {tag : Tag} {rest : List WriterStep}

/-- A keyword with a condition in parentheses. -/
theorem header_passes {word : String} (htag : IsSign d tag none) (hs : signText tag none = word)
    (hw : opensWord (signText tag none).toList = true) (ht : ExprFlows d o t) :
    Passes d Free Free (headed word
      ++ exprAt o t { use := .operand Precedence.comma } ++ [.token ")"]) := by
  have hopen : Passes d Free Free [.token "("] :=
    Passes.openParen.mono (fun _ hk => hk.leads) fun _ hk => hk
  have hinner := (hopen.append (ht.between { use := .operand Precedence.comma })).append .closeParen
  have hall := (keyword_passes htag hs hw).cons (Passes.space hinner)
  simpa [headed] using hall

/-- A keyword of every dialect with a condition in parentheses. -/
theorem everywhere_steady (tag : Tag) (htag : tag ∈ everywhere)
    (hw : opensWord (signText tag none).toList = true) (ht : ExprFlows d o t)
    (hrest : Steady d rest) : Steady d (headerAt o (signText tag none) t rest) := by
  have hall := Steady.after (header_passes (isSign_everywhere htag) rfl hw ht) hrest
  simpa [headerAt] using hall

end

theorem declared_passes {name : String} {noIn : Bool} {values : List Tree}
    (h : data.core = { tag := .identifier, payload := .text name }) (hname : IsName d name)
    (hall : ∀ t ∈ values, ExprFlows d o t) :
    Passes d Leads Ended (statementAt o (.node id data values) (.declared noIn)) := by
  have hnamed := Passes.name (d := d) (.inl hname)
  rw [statementAt_declared values h rfl]
  cases values with
  | nil => exact hnamed.mono (fun _ hk => hk) fun _ hk => hk.ended
  | cons value values =>
    have hsign : IsSign d .assign none := isSign_everywhere (by decide)
    have hassign : Passes d Ended Leads [.token (signText .assign none)] :=
      .operator hsign (by decide)
    have hvalue := (hall value (by simp)).at_ended
      { use := .operand Precedence.assignment, noIn := noIn }
    have hrest := Passes.space (hassign.cons hvalue.space)
    exact (hnamed.mono (fun _ hk => hk) fun _ hk => hk.ended).append hrest

/-- What is written of the parts of a declaration. -/
def DeclaredFlows (d : Dialect) (o : RenderOptions) (t : Tree) : Prop :=
  ∀ noIn, Passes d Leads Ended (statementAt o t (.declared noIn))

theorem var_passes {names : List Tree} (hne : names ≠ []) (hall : ∀ t ∈ names, DeclaredFlows d o t)
    (noIn : Bool) : Passes d Leads Ended (varAt o names noIn) := by
  have hsign : IsSign d .kwVar none := isSign_everywhere (by decide)
  have hopens : opensWord (signText .kwVar none).toList = true := keyword_opens (by decide)
  have hvar : Passes d Leads Free [.token (signText .kwVar none)] := by
    refine .sign hsign (fun _ hk => hk.meets ?_) (free_of_sign hsign (.inr hopens))
    exact headsOperand_word hopens
  have hnames : Passes d Leads Ended
      (separated (names.map fun name => statementAt o name (.declared noIn))) := by
    refine Passes.separated (by simpa using hne) fun x hx => ?_
    obtain ⟨t, ht, rfl⟩ := List.mem_map.mp hx
    exact hall t ht noIn
  exact hvar.cons (hnames.mono (fun _ hk => hk.leads) fun _ hk => hk)

theorem headerPart_passes (h : t.tag ≠ .empty → ExprFlows d o t) :
    Passes d Ended Ended (headerPartAt o t) := by
  rw [headerPartAt]
  split
  · exact Passes.semicolon.mono (fun _ hk => hk) fun _ hk => hk.ended
  · next ht =>
    exact Passes.semicolon.cons
      (Passes.space ((h (by simpa using ht)).between { use := .operand Precedence.comma }))

/-- What is written of the first part of a loop header. -/
def StartFlows (d : Dialect) (o : RenderOptions) (t : Tree) : Prop :=
  statementAt o t .loopStart = [] ∨ Passes d Leads Ended (statementAt o t .loopStart)

/-- The keyword of a loop and the first part of its header. -/
theorem start_passes (h : StartFlows d o t) :
    Passes d Free Ended (headed "for" ++ statementAt o t .loopStart) := by
  have hsign : IsSign d .kwFor none := isSign_everywhere (by decide)
  have hfor : Passes d Free Free [.token "for"] :=
    keyword_passes hsign rfl (keyword_opens (by decide))
  have hopen : Passes d Free Free [.token "("] :=
    Passes.openParen.mono (fun _ hk => hk.leads) fun _ hk => hk
  have hheaded : Passes d Free Free (headed "for") := hfor.cons (Passes.space hopen)
  rcases h with h | h
  · rw [h, List.append_nil]
    exact hheaded.mono (fun _ hk => hk) fun _ hk => hk.ended
  · exact hheaded.append (h.mono (fun _ hk => hk.leads) fun _ hk => hk)

/-! ## Statements -/

section
variable {test yes no body value start update object : Tree} {names : List Tree}

theorem flows_functionStatement {f : FunctionData} {role : FunctionRole}
    (hdata : data.Remarked { tag := .kwFunction, payload := .function f })
    (hf : IsFunction d f role body) (hbody : Passes d Ended Free (statementAt o body .block)) :
    StatementFlows d o (.node id data [body]) := by
  have htag : data.tag = .kwFunction := congrArg Core.tag hdata.core
  refine .of_bare hdata.leading (by simp [Tree.tag, Tree.data, htag]) ?_
  rw [bareSteps_function hdata.core]
  have hfunction := functionAt_passes hf hbody
  exact .after (hfunction.mono (fun _ hk => hk.leads) fun _ hk => hk) (.skip rfl (by simp) .nil)

theorem flows_var (hdata : data.Remarked { tag := .kwVar }) (hne : names ≠ [])
    (hall : ∀ t ∈ names, DeclaredFlows d o t) : StatementFlows d o (.node id data names) := by
  have htag : data.tag = .kwVar := congrArg Core.tag hdata.core
  refine .of_bare hdata.leading (by simp [Tree.tag, Tree.data, htag]) ?_
  rw [bareSteps_var hdata.core]
  exact .semicolon ((var_passes hne hall false).mono (fun _ hk => hk.leads) fun _ hk => hk)

theorem flows_exprStatement (hdata : data.Remarked { tag := .exprStatement })
    (hvalue : ExprFlows d o value) : StatementFlows d o (.node id data [value]) := by
  have htag : data.tag = .exprStatement := congrArg Core.tag hdata.core
  refine .of_bare hdata.leading (by simp [Tree.tag, Tree.data, htag]) ?_
  rw [bareSteps_expr hdata.core]
  exact .semicolon (hvalue.between _)

theorem flows_empty (hdata : data.Remarked { tag := .empty }) :
    StatementFlows d o (.node id data []) := by
  have htag : data.tag = .empty := congrArg Core.tag hdata.core
  have hsign : IsSign d .semicolon none := isSign_everywhere (by decide)
  refine .of_bare hdata.leading (by simp [Tree.tag, Tree.data, htag]) ?_
  rw [bareSteps_empty hdata.core]
  have hfree := free_of_sign hsign (.inl (by decide))
  have hgenuine := genuine_sign hsign
  exact .of_passes (.written rfl hgenuine (fun _ hk => hk.meets _) hfree)

theorem afterBody_steady {rest : List WriterStep} (body : Tree) (h : Steady d rest) :
    Steady d (afterBody (part o body) :: rest) := by
  rw [afterBody]
  split
  · exact .skip rfl (by simp) h
  · exact .skip rfl (by simp) h

theorem flows_if (hdata : data.Remarked { tag := .kwIf }) (htest : ExprFlows d o test)
    (hyes : StatementFlows d o yes) : StatementFlows d o (.node id data [test, yes]) := by
  have htag : data.tag = .kwIf := congrArg Core.tag hdata.core
  refine .of_bare hdata.leading (by simp [Tree.tag, Tree.data, htag]) ?_
  rw [bareSteps_if hdata.core, ifSteps_then]
  exact everywhere_steady .kwIf (by decide) (keyword_opens (by decide)) htest hyes.body

theorem flows_ifElse (hdata : data.Remarked { tag := .kwIf }) (htest : ExprFlows d o test)
    (hyes : StatementFlows d o yes) (hno : StatementFlows d o no) :
    StatementFlows d o (.node id data [test, yes, no]) := by
  have htag : data.tag = .kwIf := congrArg Core.tag hdata.core
  have hsign : IsSign d .kwElse none := isSign_everywhere (by decide)
  have hword : Passes d Free Free [.token "else"] :=
    keyword_passes hsign rfl (keyword_opens (by decide))
  have helse : Steady d (.token "else" :: statementAt o no .otherwise) := .after hword hno.otherwise
  refine .of_bare hdata.leading (by simp [Tree.tag, Tree.data, htag]) ?_
  rw [bareSteps_if hdata.core, ifSteps_else]
  exact everywhere_steady .kwIf (by decide) (keyword_opens (by decide)) htest
    (hyes.body.append (afterBody_steady yes helse))

theorem flows_while (hdata : data.Remarked { tag := .kwWhile }) (htest : ExprFlows d o test)
    (hbody : StatementFlows d o body) : StatementFlows d o (.node id data [test, body]) := by
  have htag : data.tag = .kwWhile := congrArg Core.tag hdata.core
  refine .of_bare hdata.leading (by simp [Tree.tag, Tree.data, htag]) ?_
  rw [bareSteps_while hdata.core]
  exact everywhere_steady .kwWhile (by decide) (keyword_opens (by decide)) htest hbody.body

theorem flows_with (hdata : data.Remarked { tag := .kwWith }) (htest : ExprFlows d o test)
    (hbody : StatementFlows d o body) : StatementFlows d o (.node id data [test, body]) := by
  have htag : data.tag = .kwWith := congrArg Core.tag hdata.core
  refine .of_bare hdata.leading (by simp [Tree.tag, Tree.data, htag]) ?_
  rw [bareSteps_with hdata.core]
  exact everywhere_steady .kwWith (by decide) (keyword_opens (by decide)) htest hbody.body

theorem flows_do (hdata : data.Remarked { tag := .kwDo }) (hsign : IsSign d .kwDo none)
    (hbody : StatementFlows d o body) (htest : ExprFlows d o test) :
    StatementFlows d o (.node id data [body, test]) := by
  have htag : data.tag = .kwDo := congrArg Core.tag hdata.core
  have hdo : Passes d Free Free [.token "do"] :=
    keyword_passes hsign rfl (keyword_opens (by decide))
  have hwhile : Steady d (headerAt o "while" test [.semicolon]) := by
    have hsign : IsSign d .kwWhile none := isSign_everywhere (by decide)
    have hheader : Passes d Free Free (headed "while"
        ++ exprAt o test { use := .operand Precedence.comma } ++ [.token ")"]) :=
      header_passes hsign rfl (keyword_opens (by decide)) htest
    simpa [headerAt] using Steady.semicolon hheader
  refine .of_bare hdata.leading (by simp [Tree.tag, Tree.data, htag]) ?_
  rw [bareSteps_do hdata.core]
  have hall := Steady.after hdo (hbody.body.append (afterBody_steady (o := o) body hwhile))
  simpa using hall

theorem flows_for (hdata : data.Remarked { tag := .kwFor }) (hstart : StartFlows d o start)
    (htest : test.tag ≠ .empty → ExprFlows d o test)
    (hupdate : update.tag ≠ .empty → ExprFlows d o update) (hbody : StatementFlows d o body) :
    StatementFlows d o (.node id data [start, test, update, body]) := by
  have htag : data.tag = .kwFor := congrArg Core.tag hdata.core
  refine .of_bare hdata.leading (by simp [Tree.tag, Tree.data, htag]) ?_
  rw [bareSteps_for hdata.core]
  have hheader := (((start_passes hstart).append (headerPart_passes htest)).append
    (headerPart_passes hupdate)).append .closeParen
  have hall := Steady.after hheader hbody.body
  simpa using hall

theorem flows_forIn (hdata : data.Remarked { tag := .forIn }) (hstart : StartFlows d o start)
    (hobject : ExprFlows d o object) (hbody : StatementFlows d o body) :
    StatementFlows d o (.node id data [start, object, body]) := by
  have htag : data.tag = .forIn := congrArg Core.tag hdata.core
  have hsign : IsSign d .kwIn none := isSign_everywhere (by decide)
  have hin : Passes d Ended Free [.token "in"] :=
    Passes.keyword .kwIn hsign (keyword_opens (by decide))
  refine .of_bare hdata.leading (by simp [Tree.tag, Tree.data, htag]) ?_
  rw [bareSteps_forIn hdata.core]
  have hheader := ((start_passes hstart).append (hin.cons
    (hobject.between { use := .operand Precedence.comma }))).append .closeParen
  have hall := Steady.after hheader hbody.body
  simpa using hall

/-- The keywords of jumps and returns. -/
theorem jump_keyword {tag : Tag} (ht : tag = .kwBreak ∨ tag = .kwContinue ∨ tag = .kwReturn) :
    Passes d Free Free [.token tag.spelling] := by
  rcases ht with rfl | rfl | rfl
  · exact keyword_passes (isSign_everywhere (by decide) : IsSign d .kwBreak none) rfl
      (keyword_opens (by decide))
  · exact keyword_passes (isSign_everywhere (by decide) : IsSign d .kwContinue none) rfl
      (keyword_opens (by decide))
  · exact keyword_passes (isSign_everywhere (by decide) : IsSign d .kwReturn none) rfl
      (keyword_opens (by decide))

theorem flows_keyword {tag : Tag} (hdata : data.Remarked { tag := tag })
    (ht : tag = .kwBreak ∨ tag = .kwContinue ∨ tag = .kwReturn) :
    StatementFlows d o (.node id data []) := by
  have htag : data.tag = tag := congrArg Core.tag hdata.core
  refine .of_bare hdata.leading ?_ ?_
  · rcases ht with rfl | rfl | rfl <;> simp [Tree.tag, Tree.data, htag]
  · rw [bareSteps_keyword hdata.core ht]
    exact .semicolon (jump_keyword ht)

theorem flows_jumpTo {tag : Tag} {s : String} {name : Tree} (hdata : data.Remarked { tag := tag })
    (ht : tag = .kwBreak ∨ tag = .kwContinue) (hname : IsNamed (IsName d) s name) :
    StatementFlows d o (.node id data [name]) := by
  have htag : data.tag = tag := congrArg Core.tag hdata.core
  have hok : IsName d s := by
    obtain ⟨-, hok⟩ := hname
    exact hok
  refine .of_bare hdata.leading ?_ ?_
  · rcases ht with rfl | rfl <;> simp [Tree.tag, Tree.data, htag]
  · rw [bareSteps_jump hdata.core ht hname]
    have hword : Passes d Free Free [.token tag.spelling] :=
      jump_keyword (ht.elim .inl fun ht => .inr (.inl ht))
    exact Steady.semicolon (hword.cons (name_passes hok))

theorem flows_value {tag : Tag} (hdata : data.Remarked { tag := tag })
    (ht : tag = .kwReturn ∨ tag = .kwThrow) (hsign : IsSign d tag none)
    (hvalue : ExprFlows d o value) : StatementFlows d o (.node id data [value]) := by
  have htag : data.tag = tag := congrArg Core.tag hdata.core
  have hword : Passes d Free Free [.token tag.spelling] := by
    rcases ht with rfl | rfl <;> exact keyword_passes hsign rfl (keyword_opens (by decide))
  refine .of_bare hdata.leading ?_ ?_
  · rcases ht with rfl | rfl <;> simp [Tree.tag, Tree.data, htag]
  · rw [bareSteps_value hdata.core ht]
    exact Steady.semicolon (hword.cons (hvalue.between _))

theorem clauses_steady {clauses : List Tree}
    (hall : ∀ t ∈ clauses, ∀ first, Steady d (statementAt o t (.switchClause first))) :
    Steady d (clausesAt o clauses) := by
  cases clauses with
  | nil => exact .nil
  | cons t clauses =>
    refine (hall t (by simp) true).append (.flatMap fun t' ht' => ?_)
    exact hall t' (List.mem_cons_of_mem t ht') false

theorem flows_switch {clauses : List Tree} (hdata : data.Closed { tag := .kwSwitch })
    (hsign : IsSign d .kwSwitch none) (hvalue : ExprFlows d o value)
    (hall : ∀ t ∈ clauses, ∀ first, Steady d (statementAt o t (.switchClause first))) :
    StatementFlows d o (.node id data (value :: clauses)) := by
  have htag : data.tag = .kwSwitch := congrArg Core.tag hdata.core
  have hinner : Steady d (clausesAt o clauses ++ trailingComments o data ++ [.outdent, .newline]) :=
    ((clauses_steady hall).append (comments_steady .trailingComments hdata.trailing)).append
      (.skip rfl (by simp) (.skip rfl (by simp) .nil))
  have hclosed := closed_passes hinner
  have hopen : Passes d Free Free [.token "\x7b"] :=
    brace_passes.mono (fun _ hk => hk.ended) fun _ hk => hk
  have hindented : Passes d Free Free (.indent :: _) := .skip rfl (by simp) hclosed
  have hblock := Passes.space (hopen.cons hindented)
  refine .of_bare hdata.leading (by simp [Tree.tag, Tree.data, htag]) ?_
  rw [bareSteps_switch hdata.core]
  have hheader : Passes d Free Free (headed "switch"
      ++ exprAt o value { use := .operand Precedence.comma } ++ [.token ")"]) :=
    header_passes hsign rfl (keyword_opens (by decide)) hvalue
  have hheaded := hheader.append hblock
  refine .of_passes ?_
  simpa [headerAt] using hheaded

theorem clauseLead_steady (hleading : ∀ c ∈ data.leading, Gap.IsComment c.toList) (first : Bool) :
    Steady d (clauseLead o data first) :=
  .skip rfl (by simp) (((gap_steady first).append (comments_steady .comments hleading)).append
    (.skip rfl (by simp) .nil))

theorem flows_case {parts : List Tree} (hdata : data.Remarked { tag := .kwCase })
    (hsign : IsSign d .kwCase none) (htest : ExprFlows d o test)
    (hall : ∀ t ∈ parts, StatementFlows d o t) (first : Bool) :
    Steady d (statementAt o (.node id data (test :: parts)) (.switchClause first)) := by
  have hword : Passes d Free Free [.token "case"] :=
    keyword_passes hsign rfl (keyword_opens (by decide))
  have hhead := (hword.cons (htest.between { use := .operand Precedence.comma })).append .colon
  have hrest := Steady.after hhead (listed_steady hall)
  rw [statementAt_case hdata.core, listed_eq]
  have hsteady := (clauseLead_steady (o := o) hdata.leading first).append hrest
  simpa using hsteady

theorem flows_default {parts : List Tree} (hdata : data.Remarked { tag := .kwDefault })
    (hsign : IsSign d .kwDefault none) (hall : ∀ t ∈ parts, StatementFlows d o t) (first : Bool) :
    Steady d (statementAt o (.node id data parts) (.switchClause first)) := by
  have hword : Passes d Free Free [.token "default"] :=
    keyword_passes hsign rfl (keyword_opens (by decide))
  have hcolon : Passes d Free Free [.token ":"] :=
    Passes.colon.mono (fun _ hk => hk.ended) fun _ hk => hk
  have hrest := Steady.after (hword.cons hcolon) (listed_steady hall)
  rw [statementAt_default hdata.core, listed_eq]
  have hsteady := (clauseLead_steady (o := o) hdata.leading first).append hrest
  simpa using hsteady

section
variable {s : String} {name : Tree}

/-- The head of a catch clause with its name. -/
theorem catch_passes (hsign : IsSign d .kwCatch none) (hname : IsName d s) :
    Passes d Free Free (headed "catch" ++ [.token s]) := by
  have hword : Passes d Free Free [.token "catch"] :=
    keyword_passes hsign rfl (keyword_opens (by decide))
  have hopen : Passes d Free Free [.token "("] :=
    Passes.openParen.mono (fun _ hk => hk.leads) fun _ hk => hk
  exact (hword.cons (Passes.space hopen)).append (name_passes hname)

theorem flows_catch (hdata : data.core = { tag := .kwCatch }) (hsign : IsSign d .kwCatch none)
    (hname : IsNamed (IsName d) s name) (hbody : Passes d Ended Free (statementAt o body .block)) :
    Passes d Free Free (statementAt o (.node id data [name, body]) .tryClause) := by
  have hok : IsName d s := by
    obtain ⟨-, hok⟩ := hname
    exact hok
  have hclose : Passes d Free Free [.token ")"] :=
    Passes.closeParen.mono (fun _ hk => hk.ended) fun _ hk => hk
  have hblock : Passes d Free Free (.space :: statementAt o body .block) :=
    Passes.space (hbody.mono (fun _ hk => hk.ended) fun _ hk => hk)
  rw [statementAt_catch hdata hname]
  have hall := (catch_passes hsign hok).append (hclose.cons hblock)
  simpa using hall

theorem flows_guarded {guard : Tree} (hdata : data.core = { tag := .kwCatch })
    (hsign : IsSign d .kwCatch none) (hname : IsNamed (IsName d) s name)
    (hguard : ExprFlows d o guard) (hbody : Passes d Ended Free (statementAt o body .block)) :
    Passes d Free Free (statementAt o (.node id data [name, guard, body]) .tryClause) := by
  have hok : IsName d s := by
    obtain ⟨-, hok⟩ := hname
    exact hok
  have hif : Passes d Free Free [.token "if"] :=
    keyword_passes (isSign_everywhere (by decide) : IsSign d .kwIf none) rfl
      (keyword_opens (by decide))
  have hblock : Passes d Free Free (.space :: statementAt o body .block) :=
    Passes.space (hbody.mono (fun _ hk => hk.ended) fun _ hk => hk)
  rw [statementAt_guarded hdata hname]
  have hall := (catch_passes hsign hok).append
    ((hif.cons (hguard.between { use := .operand Precedence.comma })).append
      (Passes.closeParen.cons hblock))
  simpa using hall

theorem flows_finally (hdata : data.core = { tag := .kwFinally }) (hsign : IsSign d .kwFinally none)
    (hbody : Passes d Ended Free (statementAt o body .block)) :
    Passes d Free Free (statementAt o (.node id data [body]) .tryClause) := by
  have hword : Passes d Free Free [.token "finally"] :=
    keyword_passes hsign rfl (keyword_opens (by decide))
  rw [statementAt_finally hdata]
  exact hword.cons (Passes.space (hbody.mono (fun _ hk => hk.ended) fun _ hk => hk))

theorem flows_try {clauses : List Tree} (hdata : data.Remarked { tag := .kwTry })
    (hsign : IsSign d .kwTry none) (hbody : Passes d Ended Free (statementAt o body .block))
    (hall : ∀ t ∈ clauses, Passes d Free Free (statementAt o t .tryClause)) :
    StatementFlows d o (.node id data (body :: clauses)) := by
  have htag : data.tag = .kwTry := congrArg Core.tag hdata.core
  have hword : Passes d Free Free [.token "try"] :=
    keyword_passes hsign rfl (keyword_opens (by decide))
  have hblock : Passes d Free Free (.space :: statementAt o body .block) :=
    Passes.space (hbody.mono (fun _ hk => hk.ended) fun _ hk => hk)
  refine .of_bare hdata.leading (by simp [Tree.tag, Tree.data, htag]) ?_
  rw [bareSteps_try hdata.core]
  have hsteady : Steady d (clauses.flatMap fun c => .space :: statementAt o c .tryClause) :=
    .flatMap fun t ht => .of_passes (Passes.space (hall t ht))
  have hrest := Steady.after (hword.cons hblock) hsteady
  simpa using hrest

theorem flows_label (hdata : data.Remarked { tag := .label }) (hname : IsNamed (IsName d) s name)
    (hbody : StatementFlows d o body) : StatementFlows d o (.node id data [name, body]) := by
  have htag : data.tag = .label := congrArg Core.tag hdata.core
  have hok : IsName d s := by
    obtain ⟨-, hok⟩ := hname
    exact hok
  have hcolon : Passes d Free Free [.token ":"] :=
    Passes.colon.mono (fun _ hk => hk.ended) fun _ hk => hk
  refine .of_bare hdata.leading (by simp [Tree.tag, Tree.data, htag]) ?_
  rw [bareSteps_label hdata.core hname]
  have hhead : Passes d Free Free [.token s, .token ":"] := (name_passes hok).cons hcolon
  exact .skip rfl (by simp) (.after hhead (.skip rfl (by simp) (hbody.listed true)))

end
end

/-! ## Well-formed trees -/

/-- What is written of a tree, by its form. -/
def FormFlows (d : Dialect) (o : RenderOptions) : Form → Tree → Prop
  | .expr, t => ExprFlows d o t
  | .element, t | .part, t => t.tag ≠ .empty → ExprFlows d o t
  | .declared, t => DeclaredFlows d o t
  | .start, t => StartFlows d o t
  | .statement _ _, t => StatementFlows d o t
  | .block _ _, t => Passes d Ended Free (statementAt o t .block)
  | .clause _, t => ∀ first, Steady d (statementAt o t (.switchClause first))
  | .handler _ _, t => Passes d Free Free (statementAt o t .tryClause)

end Render

open Render

theorem Formed.flows {form : Form} (h : Formed d form t) : FormFlows d o form t := by
  induction h with
  | leaf hdata hleaf => exact flows_leaf hdata.core hleaf
  | array hdata _ ih => exact flows_array hdata.core ih
  | object hdata hkeys _ ih => exact flows_object hdata.core hkeys ih
  | function hdata hf _ ih => exact flows_function hdata.core hf ih
  | unary hdata hop _ ih => exact flows_unary hdata.core hop ih
  | step hdata ht _ _ ih => exact flows_step hdata.core ht ih
  | assign hdata hsign _ _ _ ih ih' => exact flows_assign hdata.core hsign ih ih'
  | conditional hdata _ _ _ ih ih' ih'' => exact flows_conditional hdata.core ih ih' ih''
  | binary hdata hop _ _ ih ih' => exact flows_binary hdata.core hop ih ih'
  | comma hdata _ _ ih ih' => exact flows_comma hdata.core ih ih'
  | call hdata _ _ ih ih' => exact flows_call hdata.core ih ih'
  | construct hdata _ _ ih ih' => exact flows_construct hdata.core ih ih'
  | property hdata _ hname ih => exact flows_property hdata.core hname ih
  | index hdata _ _ ih ih' => exact flows_index hdata.core ih ih'
  | hole hdata | noPart hdata => exact fun h => absurd (congrArg Core.tag hdata.core) h
  | element _ ih | part _ ih => exact fun _ => ih
  | declared hdata hname => exact fun noIn => declared_passes hdata.core hname (by simp)
  | initialised hdata hname _ ih =>
    refine fun noIn => declared_passes hdata.core hname fun t ht => ?_
    rw [List.mem_singleton.mp ht]
    exact ih
  | noStart hdata =>
    left
    have htag := congrArg Core.tag hdata.core
    rw [statementAt_loopStart, if_pos (by simpa [Tree.tag, Tree.data, Node.core] using htag)]
  | exprStart ht ih =>
    right
    obtain ⟨hempty, hvar, -, -⟩ := ht.expr_tag
    rw [statementAt_loopStart, if_neg (by simpa using hempty), if_neg (by simpa using hvar)]
    exact ExprFlows.at_ended ih _
  | varStart hdata hne _ ih =>
    right
    have htag := congrArg Core.tag hdata.core
    have hstart := var_passes (o := o) hne ih true
    simp only [Node.core] at htag
    simpa [statementAt_loopStart, Tree.tag, Tree.data, Tree.children, htag, varAt] using hstart
  | block hdata _ _ ih =>
    change Passes d Ended Free (statementAt o (.node _ _ _) .block)
    rw [statementAt_block]
    exact block_passes hdata.trailing ih
  | functionStatement hdata hf _ ih => exact flows_functionStatement hdata hf ih
  | blockStatement hdata _ ih => exact .of_block hdata ih
  | var hdata hne _ ih => exact flows_var hdata hne ih
  | empty hdata => exact flows_empty hdata
  | ifThen hdata _ _ ih ih' => exact flows_if hdata ih ih'
  | ifElse hdata _ _ _ _ ih ih' ih'' => exact flows_ifElse hdata ih ih' ih''
  | «while» hdata _ _ ih ih' => exact flows_while hdata ih ih'
  | doWhile hdata hsign _ _ ih ih' => exact flows_do hdata hsign ih ih'
  | «for» hdata _ _ _ _ ih ih' ih'' ih₃ => exact flows_for hdata ih ih' ih'' ih₃
  | forIn hdata _ _ _ _ ih ih' ih'' => exact flows_forIn hdata ih ih' ih''
  | jump hdata ht => exact flows_keyword hdata (ht.elim .inl fun ht => .inr (.inl ht))
  | jumpTo hdata ht _ hname => exact flows_jumpTo hdata ht hname
  | «return» hdata => exact flows_keyword hdata (.inr (.inr rfl))
  | returnValue hdata _ _ ih =>
    exact flows_value hdata (.inl rfl) (isSign_everywhere (by decide)) ih
  | «with» hdata _ _ ih ih' => exact flows_with hdata ih ih'
  | switch hdata hsign _ _ _ ih ih' => exact flows_switch hdata hsign ih ih'
  | case hdata hsign _ _ ih ih' => exact flows_case hdata hsign ih ih'
  | default hdata hsign _ ih => exact flows_default hdata hsign ih
  | throw hdata hsign _ ih => exact flows_value hdata (.inr rfl) hsign ih
  | «try» hdata hsign _ _ _ _ _ ih ih' ih'' =>
    refine flows_try hdata hsign ih fun t ht => ?_
    exact (List.mem_append.mp ht).elim (ih' t) (ih'' t)
  | «catch» hdata hsign hname _ ih => exact flows_catch hdata.core hsign hname ih
  | guarded hdata hsign _ hname _ _ ih ih' => exact flows_guarded hdata.core hsign hname ih ih'
  | «finally» hdata hsign _ ih => exact flows_finally hdata.core hsign ih
  | label hdata hname _ _ ih => exact flows_label hdata hname ih
  | exprStatement hdata _ ih => exact flows_exprStatement hdata ih

/-- What is written of the statements below a node flows. -/
theorem statements_flow {ctx : Ctx} {top : Bool} {id : NodeId} {data : Node} {parts : List Tree}
    (htrailing : ∀ c ∈ data.trailing, Gap.IsComment c.toList)
    (hall : ∀ t ∈ parts, Formed d (.statement ctx top) t) (o : RenderOptions) :
    Flows d none false (scriptSteps o (.node id data parts)) := by
  have hlisted := listed_steady fun t ht => Formed.flows (o := o) (hall t ht)
  have hsteady := hlisted.append (comments_steady (o := o) .trailingComments htrailing)
  have hflows := hsteady none false [] (by simp) fun _ _ _ => trivial
  rw [List.append_nil] at hflows
  rw [scriptSteps, partsOf_eq]
  exact listed_eq (o := o) _ ▸ hflows

/-- What is written of a script flows. -/
theorem IsScript.flows (h : IsScript d t) (o : RenderOptions) :
    Flows d none false (scriptSteps o t) := by
  obtain ⟨hdata, -, hall⟩ := h
  exact statements_flow hdata.trailing hall o

end ScriptPress
