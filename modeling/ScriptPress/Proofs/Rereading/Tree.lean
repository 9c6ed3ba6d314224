import ScriptPress.Proofs.Rereading.Handler

/-! # Reading trees again

Every tree that the grammar can read is read again from what is written of it: an induction over
the forms of trees, with one lemma to each.
-/
namespace ScriptPress.Grammar
open Lexer Render

/-- How a tree is read again, by its form. -/
def FormYields (x : Tape) : Form → Tree → Prop
  | .expr, t => ExprYields x t
  | .element, t | .part, t => t.tag ≠ .empty → ExprYields x t
  | .declared, t => DeclaredYields x t
  | .start, t => StartYields x t
  | .statement ctx top, t => StatementYields x ctx top t
  | .block ctx top, t => BlockYields x ctx top t
  | .clause ctx, t => ClauseYields x ctx t
  | .handler ctx tag, t => HandlerYields x ctx tag t

variable {x : Tape} {t : Tree}

theorem formed_yields {form : Form} (h : Formed x.dialect form t) : FormYields x form t := by
  induction h with
  | leaf hdata hleaf => exact (leaf_yields hdata hleaf).exprYields (.leaf hdata hleaf)
  | array hdata hall ih => exact (array_yields hdata hall ih).exprYields (.array hdata hall)
  | object hdata hkeys hall ih =>
    exact (object_yields hdata hkeys ih).exprYields (.object hdata hkeys hall)
  | function hdata hf hbody ih =>
    exact (function_yields hdata hf ih).exprYields (.function hdata hf hbody)
  | unary hdata hop hoperand ih =>
    exact (unary_yields hdata hop ih).exprYields (.unary hdata hop hoperand)
  | step hdata ht hassignable hoperand ih =>
    exact (step_yields hdata ht hassignable ih).exprYields (.step hdata ht hassignable hoperand)
  | assign hdata hsign hassignable htarget hvalue ih ih' =>
    exact (assign_yields hdata hsign hassignable htarget ih ih').exprYields
      (.assign hdata hsign hassignable htarget hvalue)
  | conditional hdata htest hyes hno ih ih' ih'' =>
    exact (conditional_yields hdata ih ih' ih'').exprYields (.conditional hdata htest hyes hno)
  | binary hdata hop hleft hright ih ih' =>
    exact (binary_yields hdata hop ih ih').exprYields (.binary hdata hop hleft hright)
  | comma hdata hleft hright ih ih' =>
    exact (comma_yields hdata ih ih').exprYields (.comma hdata hleft hright)
  | call hdata hcallee hall ih ih' =>
    exact (call_yields hdata ih hall ih').exprYields (.call hdata hcallee hall)
  | construct hdata hcallee hall ih ih' =>
    exact (construct_yields hdata ih hall ih').exprYields (.construct hdata hcallee hall)
  | property hdata hobject hname ih =>
    exact (property_yields hdata hname ih).exprYields (.property hdata hobject hname)
  | index hdata hobject hindex ih ih' =>
    exact (index_yields hdata ih ih').exprYields (.index hdata hobject hindex)
  | hole hdata | noPart hdata => exact fun h => absurd (congrArg Core.tag hdata.core) h
  | element _ ih | part _ ih => exact fun _ => ih
  | declared hdata hname => exact declared_yields hdata hname
  | initialised hdata hname _ ih => exact initialised_yields hdata hname ih
  | noStart hdata => exact noStart_yields hdata
  | exprStart ht ih => exact exprStart_yields ht ih
  | varStart hdata hne _ ih => exact varStart_yields hdata hne ih
  | block hdata hleading hall ih => exact block_yields hdata.core hleading hall ih
  | functionStatement hdata hf _ ih => exact functionStatement_yields hdata hf ih
  | blockStatement hdata hall ih => exact blockStatement_yields hdata hall ih
  | var hdata hne hall ih => exact varStatement_yields hdata hne hall ih
  | empty hdata => exact emptyStatement_yields hdata
  | ifThen hdata htest hyes ih ih' => exact ifThen_yields hdata htest hyes ih ih'
  | ifElse hdata htest hyes hclosed hno ih ih' ih'' =>
    exact ifElse_yields hdata htest hyes hclosed hno ih ih' ih''
  | «while» hdata htest hbody ih ih' => exact whileStatement_yields hdata htest hbody ih ih'
  | doWhile hdata hsign hbody htest ih ih' =>
    exact doStatement_yields hdata hsign hbody htest ih ih'
  | «for» hdata hstart htest hupdate hbody ih ih' ih'' ih₃ =>
    exact forStatement_yields hdata hstart htest hupdate hbody ih ih' ih'' ih₃
  | forIn hdata hstart htarget hobject hbody ih ih' ih'' =>
    exact forInStatement_yields hdata hstart htarget hobject hbody ih ih' ih''
  | jump hdata ht hreaches =>
    have hnames : Labelled x.dialect none [] := rfl
    exact jumpStatement_yields hdata ht hreaches hnames (.jump hdata ht hreaches)
  | jumpTo hdata ht hreaches hname =>
    exact jumpStatement_yields hdata ht hreaches ⟨_, rfl, hname⟩
      (.jumpTo hdata ht hreaches hname)
  | «return» hdata hinside => exact returnStatement_yields hdata hinside
  | returnValue hdata hinside hvalue ih => exact returnValue_yields hdata hinside hvalue ih
  | «with» hdata hobject hbody ih ih' => exact withStatement_yields hdata hobject hbody ih ih'
  | switch hdata hsign hvalue hall hone ih ih' =>
    exact switchStatement_yields hdata hsign hvalue hall hone ih ih'
  | case hdata hsign _ hall ih ih' => exact case_yields hdata hsign ih hall ih'
  | default hdata hsign hall ih => exact default_yields hdata hsign hall ih
  | throw hdata hsign hvalue ih => exact throwStatement_yields hdata hsign hvalue ih
  | «try» hdata hsign hbody hcatches hfinals hone hne ih ih' ih'' =>
    exact tryStatement_yields hdata hsign hbody hcatches hfinals hone hne ih ih' ih''
  | «catch» hdata hsign hname _ ih => exact catch_yields hdata hsign hname ih
  | guarded hdata hsign hguards hname _ _ ih ih' =>
    exact guarded_yields hdata hsign hguards hname ih ih'
  | «finally» hdata hsign _ ih => exact finally_yields hdata hsign ih
  | label hdata hname hrole hbody ih => exact labelStatement_yields hdata hname hrole hbody ih
  | exprStatement hdata hvalue ih => exact exprStatement_yields hdata hvalue ih

end ScriptPress.Grammar
