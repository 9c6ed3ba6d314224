import ScriptPress.Proofs.Printing.Signs
import ScriptPress.Proofs.Shape.Formed

/-! # The shapes of nodes

How many children a node of each type has, and of what kinds. Every node of a well-formed tree
has the children of its type: what the grammar tells of a tree is told of the nodes below it too.
-/
namespace ScriptPress

namespace Tag

/-- The types of expressions. -/
def isExpr : Tag → Bool
  | .identifier | .number | .string | .regExp | .primary | .kwFunction | .arrayLit | .objectLit
  | .unary | .increment | .decrement | .assign | .question | .comma | .call | .kwNew | .getProp
  | .getElem => true
  | t => t.binaryPrecedence?.isSome

/-- The types of statements. -/
def isStatement : Tag → Bool
  | .kwFunction | .block | .kwVar | .exprStatement | .empty | .kwIf | .kwWhile | .kwDo | .kwFor
  | .forIn | .kwReturn | .kwBreak | .kwContinue | .kwWith | .kwSwitch | .label | .kwThrow
  | .kwTry => true
  | _ => false

theorem isExpr_of_level {t : Tag} {level : Nat} (h : t.binaryPrecedence? = some level) :
    t.isExpr = true ∧ t ≠ .identifier := by
  cases t <;> first | (cases h; done) | exact ⟨rfl, nofun⟩

end Tag

namespace Tree

/-- A name alone. -/
def isName (t : Tree) : Bool := t.tag == .identifier && t.children.isEmpty

def isExpr (t : Tree) : Bool := t.tag.isExpr && (t.tag != .identifier || t.children.isEmpty)

def isStatement (t : Tree) : Bool := t.tag.isStatement

/-- Nothing in the place of an expression. -/
def isHole (t : Tree) : Bool := t.tag == .empty && t.children.isEmpty

/-- A declared name, perhaps with a value. -/
def isDeclared (t : Tree) : Bool :=
  t.tag == .identifier && match t.children with
    | [] => true
    | [value] => value.isExpr
    | _ => false

/-- The key of a property: a name, a string or a number. -/
def isKey (t : Tree) : Bool :=
  (t.tag == .identifier || t.tag == .string || t.tag == .number) && t.children.isEmpty

/-- What a `for` goes through: something to assign to, or one declared name. -/
def isLoopTarget (t : Tree) : Bool :=
  t.isExpr && t.tag.isAssignable || t.tag == .kwVar && t.children.length == 1

/-- Keys and values in turn. -/
def alternates : List Tree → Bool
  | [] => true
  | key :: value :: rest => key.isKey && value.isExpr && alternates rest
  | [_] => false

/-- The clauses of a `try`: catches and then perhaps a `finally`, one clause at least. -/
def areHandlers (clauses : List Tree) : Bool :=
  !clauses.isEmpty && match clauses.dropWhile (·.tag == .kwCatch) with
    | [] => true
    | [last] => last.tag == .kwFinally
    | _ => false

/-- Whether some trees can be the children of a node of a type. -/
def partsFit : Tag → List Tree → Bool
  | .script, parts | .block, parts | .kwDefault, parts => parts.all isStatement
  | .kwFunction, [body] => body.tag == .block
  | .kwVar, names => !names.isEmpty && names.all isDeclared
  | .exprStatement, [value] | .kwThrow, [value] => value.isExpr
  | .empty, [] | .kwReturn, [] | .kwBreak, [] | .kwContinue, [] => true
  | .kwReturn, [value] => value.isExpr
  | .kwBreak, [label] | .kwContinue, [label] => label.isName
  | .kwIf, [test, yes] => test.isExpr && yes.isStatement
  | .kwIf, [test, yes, no] => test.isExpr && yes.isStatement && no.isStatement
  | .kwWhile, [first, body] | .kwWith, [first, body] => first.isExpr && body.isStatement
  | .kwDo, [body, test] => body.isStatement && test.isExpr
  | .kwFor, [start, test, update, body] =>
    (start.isHole || start.isExpr || start.tag == .kwVar) && (test.isHole || test.isExpr)
      && (update.isHole || update.isExpr) && body.isStatement
  | .forIn, [target, object, body] => target.isLoopTarget && object.isExpr && body.isStatement
  | .kwSwitch, value :: clauses =>
    value.isExpr && clauses.all fun c => c.tag == .kwCase || c.tag == .kwDefault
  | .kwCase, test :: parts => test.isExpr && parts.all isStatement
  | .label, [name, body] => name.isName && body.isStatement
  | .kwTry, body :: clauses => body.tag == .block && areHandlers clauses
  | .kwCatch, [name, body] => name.isName && body.tag == .block
  | .kwCatch, [name, guard, body] => name.isName && guard.isExpr && body.tag == .block
  | .kwFinally, [body] => body.tag == .block
  | .identifier, [] | .number, [] | .string, [] | .regExp, [] | .primary, [] => true
  | .identifier, [value] => value.isExpr
  | .arrayLit, parts => parts.all fun t => t.isHole || t.isExpr
  | .objectLit, parts => alternates parts
  | .unary, [operand] => operand.isExpr
  | .increment, [operand] | .decrement, [operand] => operand.isExpr && operand.tag.isAssignable
  | .assign, [target, value] => target.isExpr && target.tag.isAssignable && value.isExpr
  | .question, [test, yes, no] => test.isExpr && yes.isExpr && no.isExpr
  | .comma, [left, right] => left.isExpr && right.isExpr
  | .call, callee :: args | .kwNew, callee :: args => callee.isExpr && args.all isExpr
  | .getProp, [object, name] => object.isExpr && name.isName
  | .getElem, [object, index] => object.isExpr && index.isExpr
  | tag, [left, right] => tag.binaryPrecedence?.isSome && left.isExpr && right.isExpr
  | _, _ => false

/-- Whether the children of a node are those of its type. -/
def fits (t : Tree) : Bool := partsFit t.tag t.children

theorem partsFit_binary {tag : Tag} {level : Nat} (h : tag.binaryPrecedence? = some level)
    (left right : Tree) : partsFit tag [left, right] = (left.isExpr && right.isExpr) := by
  cases tag <;> first | (cases h; done) | rfl

end Tree

/-! ## What trees of a form are to their parents -/

/-- What a tree of a form is to its parent. -/
def Form.suits : Form → Tree → Bool
  | .expr, t => t.isExpr
  | .element, t | .part, t => t.isHole || t.isExpr
  | .declared, t => t.isDeclared
  | .start, t => t.isHole || t.isExpr || t.tag == .kwVar
  | .statement _ _, t => t.isStatement
  | .block _ _, t => t.tag == .block
  | .clause _, t => t.tag == .kwCase || t.tag == .kwDefault
  | .handler _ tag, t => t.tag == tag

section
variable {d : Dialect} {t : Tree} {id : NodeId} {data : Node} {core : Core} {children : List Tree}

theorem tag_node (h : data.core = core) : (Tree.node id data children).tag = core.tag :=
  congrArg Core.tag h

theorem isExpr_node (h : data.core = core) (hexpr : core.tag.isExpr = true)
    (hname : core.tag = .identifier → children = []) :
    (Tree.node id data children).isExpr = true := by
  rw [Tree.isExpr, tag_node h, hexpr, Bool.true_and, Bool.or_eq_true, bne_iff_ne]
  by_cases hc : core.tag = .identifier
  · exact Or.inr (by rw [Tree.children, hname hc]; rfl)
  · exact Or.inl hc

theorem isStatement_node (h : data.core = core) (hs : core.tag.isStatement = true) :
    (Tree.node id data children).isStatement = true := by
  rw [Tree.isStatement, tag_node h, hs]

theorem isHole_node (h : data.core = core) (htag : core.tag = .empty) :
    (Tree.node id data []).isHole = true := by
  rw [Tree.isHole, tag_node h, htag]
  rfl

theorem IsKey.isKey (h : IsKey d t) : t.isKey = true := by
  cases h with
  | name hdata | string hdata | number hdata =>
    rw [Tree.isKey, tag_node hdata.core]
    rfl

theorem IsNamed.isName {ok : String → Prop} {name : String} (h : IsNamed ok name t) :
    t.isName = true := by
  obtain ⟨hdata, -⟩ := h
  rw [Tree.isName, tag_node hdata.core]
  rfl

theorem Formed.suits {form : Form} (h : Formed d form t) : form.suits t = true := by
  induction h with
  | leaf hdata hleaf => cases hleaf <;> exact isExpr_node hdata.core rfl fun _ => rfl
  | binary hdata hop =>
    obtain ⟨level, hl⟩ := hop.level
    obtain ⟨hexpr, hname⟩ := Tag.isExpr_of_level hl
    exact isExpr_node hdata.core hexpr fun h => absurd h hname
  | step hdata ht =>
    rcases ht with rfl | rfl <;> exact isExpr_node hdata.core rfl nofun
  | array hdata | object hdata | function hdata | unary hdata | assign hdata | conditional hdata
  | comma hdata | call hdata | construct hdata | property hdata | index hdata =>
    exact isExpr_node hdata.core rfl nofun
  | element _ ih | part _ ih =>
    exact Bool.or_eq_true _ _ |>.mpr (Or.inr ih)
  | exprStart _ ih => simp [Form.suits, show Tree.isExpr _ = true from ih]
  | hole hdata | noPart hdata =>
    exact Bool.or_eq_true _ _ |>.mpr (Or.inl (isHole_node hdata.core rfl))
  | noStart hdata => simp [Form.suits, isHole_node hdata.core rfl]
  | declared hdata =>
    simp [Form.suits, Tree.isDeclared, tag_node hdata.core, Tree.children]
  | initialised hdata _ _ ih =>
    have hvalue : Tree.isExpr _ = true := ih
    simp [Form.suits, Tree.isDeclared, tag_node hdata.core, Tree.children, hvalue]
  | varStart hdata | block hdata | case hdata | default hdata | «catch» hdata | guarded hdata
  | «finally» hdata =>
    simp [Form.suits, tag_node hdata.core]
  | jump hdata ht | jumpTo hdata ht =>
    rcases ht with rfl | rfl <;> exact isStatement_node hdata.core rfl
  | functionStatement hdata | blockStatement hdata | var hdata | empty hdata | ifThen hdata
  | ifElse hdata | «while» hdata | doWhile hdata | «for» hdata | forIn hdata | «return» hdata
  | returnValue hdata | «with» hdata | switch hdata | throw hdata | «try» hdata | label hdata
  | exprStatement hdata =>
    exact isStatement_node hdata.core rfl

namespace Formed
variable {ctx : Ctx} {top : Bool}

theorem isExpr (h : Formed d .expr t) : t.isExpr = true := h.suits

theorem isStatement (h : Formed d (.statement ctx top) t) : t.isStatement = true := h.suits

theorem isDeclared (h : Formed d .declared t) : t.isDeclared = true := h.suits

end Formed

/-! ## The children of a node -/

theorem and_of {a b : Bool} (ha : a = true) (hb : b = true) : (a && b) = true :=
  Bool.and_eq_true_iff.mpr ⟨ha, hb⟩

theorem fits_node (h : data.core = core) (hparts : Tree.partsFit core.tag children = true) :
    (Tree.node id data children).fits = true := by
  rw [Tree.fits, tag_node h]
  exact hparts

theorem alternates_flatPairs {pairs : List (Tree × Tree)} (hkeys : ∀ p ∈ pairs, p.1.isKey = true)
    (hvalues : ∀ p ∈ pairs, p.2.isExpr = true) :
    Tree.alternates (Tree.flatPairs pairs) = true := by
  induction pairs with
  | nil => rfl
  | cons p pairs ih =>
    have hrest := ih (fun q hq => hkeys q (List.mem_cons_of_mem _ hq))
      fun q hq => hvalues q (List.mem_cons_of_mem _ hq)
    have hfirst := hkeys p (List.mem_cons_self ..)
    have hsecond := hvalues p (List.mem_cons_self ..)
    change (p.1.isKey && p.2.isExpr && Tree.alternates (Tree.flatPairs pairs)) = true
    rw [hfirst, hsecond, hrest]
    rfl

theorem areHandlers_append {catches finals : List Tree}
    (hcatches : ∀ t ∈ catches, t.tag = .kwCatch) (hfinals : ∀ t ∈ finals, t.tag = .kwFinally)
    (hone : finals.length ≤ 1) (hsome : catches ++ finals ≠ []) :
    Tree.areHandlers (catches ++ finals) = true := by
  have hdrop : (catches ++ finals).dropWhile (·.tag == .kwCatch) = finals := by
    rw [List.dropWhile_append_of_pos fun t ht => by simpa using hcatches t ht]
    cases finals with
    | nil => rfl
    | cons last rest => exact List.dropWhile_cons_of_neg (by simp [hfinals last (by simp)])
  rw [Tree.areHandlers, hdrop, Bool.and_eq_true, Bool.not_eq_true', List.isEmpty_eq_false_iff]
  refine ⟨hsome, ?_⟩
  match finals, hone, hfinals with
  | [], _, _ => rfl
  | [last], _, hfinals => simp [hfinals last (by simp)]

theorem isLoopTarget_start (h : Formed d .start t) (htarget : Grammar.isForInTarget t = true) :
    t.isLoopTarget = true := by
  have hsuits := h.suits
  rw [Grammar.isForInTarget] at htarget
  split at htarget
  · next hvar => simp [Tree.isLoopTarget, hvar, htarget]
  · next hvar =>
    have hempty : t.tag ≠ .empty := fun he => by simp [he, Tag.isAssignable] at htarget
    have hexpr : t.isExpr = true := by
      simpa [Form.suits, Tree.isHole, hempty, hvar] using hsuits
    simp [Tree.isLoopTarget, hexpr, htarget]

/-- Every node that the grammar makes has the children of its type. -/
theorem Formed.fits {form : Form} (h : Formed d form t) : t.fits = true := by
  induction h with
  | leaf hdata hleaf => cases hleaf <;> exact fits_node hdata.core rfl
  | array hdata hall =>
    exact fits_node hdata.core (List.all_eq_true.mpr fun t ht => (hall t ht).suits)
  | object hdata hkeys hvalues =>
    exact fits_node hdata.core (alternates_flatPairs (fun p hp => (hkeys p hp).isKey)
      fun p hp => (hvalues p hp).isExpr)
  | function hdata _ hbody | functionStatement hdata _ hbody | «finally» hdata _ hbody =>
    exact fits_node hdata.core (Formed.suits hbody)
  | unary hdata _ hvalue | initialised hdata _ hvalue | returnValue hdata _ hvalue
  | throw hdata _ hvalue | exprStatement hdata hvalue =>
    exact fits_node hdata.core hvalue.isExpr
  | step hdata ht hassign hoperand =>
    rcases ht with rfl | rfl <;>
      exact fits_node hdata.core (and_of hoperand.isExpr hassign)
  | assign hdata _ hassign htarget hvalue =>
    exact fits_node hdata.core (and_of (and_of htarget.isExpr hassign) hvalue.isExpr)
  | conditional hdata htest hyes hno =>
    exact fits_node hdata.core (and_of (and_of htest.isExpr hyes.isExpr) hno.isExpr)
  | binary hdata hop hleft hright =>
    obtain ⟨level, hl⟩ := hop.level
    refine fits_node hdata.core ((Tree.partsFit_binary hl _ _).trans ?_)
    exact and_of hleft.isExpr hright.isExpr
  | comma hdata hleft hright | index hdata hleft hright =>
    exact fits_node hdata.core (and_of hleft.isExpr hright.isExpr)
  | call hdata hcallee hargs | construct hdata hcallee hargs =>
    refine fits_node hdata.core (and_of hcallee.isExpr ?_)
    exact List.all_eq_true.mpr fun t ht => (hargs t ht).isExpr
  | property hdata hobject hname =>
    exact fits_node hdata.core (and_of hobject.isExpr hname.isName)
  | hole hdata | declared hdata | noPart hdata | noStart hdata | empty hdata | «return» hdata =>
    exact fits_node hdata.core rfl
  | element _ ih | part _ ih | exprStart _ ih => exact ih
  | varStart hdata hne hall | var hdata hne hall =>
    refine fits_node hdata.core (and_of (by simpa using hne) ?_)
    exact List.all_eq_true.mpr fun t ht => (hall t ht).isDeclared
  | block hdata _ hall | blockStatement hdata hall | default hdata _ hall =>
    exact fits_node hdata.core (List.all_eq_true.mpr fun t ht => (hall t ht).isStatement)
  | ifThen hdata htest hyes | «while» hdata htest hyes | «with» hdata htest hyes =>
    exact fits_node hdata.core (and_of htest.isExpr hyes.isStatement)
  | ifElse hdata htest hyes _ hno =>
    exact fits_node hdata.core (and_of (and_of htest.isExpr hyes.isStatement) hno.isStatement)
  | doWhile hdata _ hbody htest =>
    exact fits_node hdata.core (and_of hbody.isStatement htest.isExpr)
  | «for» hdata hstart htest hupdate hbody =>
    exact fits_node hdata.core
      (and_of (and_of (and_of hstart.suits htest.suits) hupdate.suits) hbody.isStatement)
  | forIn hdata hstart htarget hobject hbody =>
    exact fits_node hdata.core
      (and_of (and_of (isLoopTarget_start hstart htarget) hobject.isExpr) hbody.isStatement)
  | jump hdata ht => rcases ht with rfl | rfl <;> exact fits_node hdata.core rfl
  | jumpTo hdata ht _ hname =>
    rcases ht with rfl | rfl <;> exact fits_node hdata.core hname.isName
  | switch hdata _ hvalue hclauses =>
    refine fits_node hdata.core (and_of hvalue.isExpr ?_)
    exact List.all_eq_true.mpr fun t ht => (hclauses t ht).suits
  | case hdata _ htest hall =>
    refine fits_node hdata.core (and_of htest.isExpr ?_)
    exact List.all_eq_true.mpr fun t ht => (hall t ht).isStatement
  | «try» hdata _ hbody hcatches hfinals hone hsome =>
    refine fits_node hdata.core (and_of hbody.suits ?_)
    exact areHandlers_append (fun t ht => eq_of_beq (hcatches t ht).suits)
      (fun t ht => eq_of_beq (hfinals t ht).suits) hone hsome
  | «catch» hdata _ hname hbody =>
    exact fits_node hdata.core (and_of hname.isName hbody.suits)
  | guarded hdata _ _ hname hguard hbody =>
    exact fits_node hdata.core (and_of (and_of hname.isName hguard.isExpr) hbody.suits)
  | label hdata hname _ hbody =>
    exact fits_node hdata.core (and_of hname.isName hbody.isStatement)

end

/-! ## The nodes of a tree -/

/-- What the grammar makes a node from: a tree of a form, a key or a name. -/
inductive Made (d : Dialect) : Tree → Prop
  | formed {form t} : Formed d form t → Made d t
  | key {t} : IsKey d t → Made d t
  | named {ok name t} : IsNamed ok name t → Made d t

section
variable {d : Dialect} {t : Tree}

theorem Made.fits (h : Made d t) : t.fits = true := by
  cases h with
  | formed h => exact h.fits
  | key h =>
    cases h with
    | name hdata | string hdata | number hdata => exact fits_node hdata.core rfl
  | named h =>
    obtain ⟨hdata, -⟩ := h
    exact fits_node hdata.core rfl

theorem Formed.children {form : Form} (h : Formed d form t) : ∀ c ∈ t.children, Made d c := by
  induction h with
  | leaf | hole | declared | noPart | noStart | empty | jump | «return» => exact nofun
  | array _ hall | varStart _ _ hall | block _ _ hall | blockStatement _ hall | var _ _ hall
  | default _ _ hall => exact fun c hc => .formed (hall c hc)
  | object _ hkeys hvalues =>
    intro c hc
    obtain ⟨p, hp, hc⟩ := List.mem_flatMap.mp (show c ∈ Tree.flatPairs _ from hc)
    rcases (by simpa using hc : c = p.1 ∨ c = p.2) with rfl | rfl
    · exact .key (hkeys p hp)
    · exact .formed (hvalues p hp)
  | function _ _ h | functionStatement _ _ h | unary _ _ h | step _ _ _ h | initialised _ _ h
  | returnValue _ _ h | throw _ _ h | «finally» _ _ h | exprStatement _ h =>
    simpa [Tree.children] using Made.formed h
  | assign _ _ _ h h' | binary _ _ h h' | comma _ h h' | index _ h h' | ifThen _ h h'
  | «while» _ h h' | doWhile _ _ h h' | «with» _ h h' =>
    simpa [Tree.children] using And.intro (Made.formed h) (Made.formed h')
  | conditional _ h h' h'' | ifElse _ h h' _ h'' | forIn _ h _ h' h'' =>
    simpa [Tree.children] using
      And.intro (Made.formed h) (And.intro (Made.formed h') (Made.formed h''))
  | «for» _ h h' h'' h₃ =>
    simpa [Tree.children] using And.intro (Made.formed h)
      (And.intro (Made.formed h') (And.intro (Made.formed h'') (Made.formed h₃)))
  | call _ h hall | construct _ h hall | switch _ _ h hall | case _ _ h hall =>
    simpa [Tree.children] using And.intro (Made.formed h) fun c hc => Made.formed (hall c hc)
  | property _ h hname =>
    simpa [Tree.children] using And.intro (Made.formed h) (Made.named hname)
  | element _ ih | part _ ih | exprStart _ ih => exact ih
  | jumpTo _ _ _ hname => simpa [Tree.children] using Made.named hname
  | «catch» _ _ hname h | label _ hname _ h =>
    simpa [Tree.children] using And.intro (Made.named hname) (Made.formed h)
  | guarded _ _ _ hname h h' =>
    simpa [Tree.children] using
      And.intro (Made.named hname) (And.intro (Made.formed h) (Made.formed h'))
  | «try» _ _ h hcatches hfinals =>
    intro c hc
    rcases List.mem_cons.mp (show c ∈ _ :: _ from hc) with rfl | hc
    · exact .formed h
    · exact (List.mem_append.mp hc).elim (fun hc => .formed (hcatches c hc))
        fun hc => .formed (hfinals c hc)

theorem Made.children (h : Made d t) : ∀ c ∈ t.children, Made d c := by
  cases h with
  | formed h => exact h.children
  | key h => cases h <;> exact nofun
  | named h =>
    obtain ⟨-, -⟩ := h
    exact nofun

mutual

theorem Made.inside {t u : Tree} (h : Made d t) (hu : u ∈ t.preorder) : Made d u := by
  cases t with
  | node id data children =>
    rw [Tree.preorder, List.mem_cons] at hu
    rcases hu with rfl | hu
    · exact h
    · exact made_insideAll h.children hu

theorem made_insideAll {ts : List Tree} {u : Tree} (h : ∀ t ∈ ts, Made d t)
    (hu : u ∈ Tree.preorderAll ts) : Made d u := by
  cases ts with
  | nil => simp [Tree.preorderAll] at hu
  | cons t rest =>
    rw [Tree.preorderAll, List.mem_append] at hu
    rcases hu with hu | hu
    · exact (h t (List.mem_cons_self ..)).inside hu
    · exact made_insideAll (fun c hc => h c (List.mem_cons_of_mem _ hc)) hu

end

/-- Below a script is nothing but what the grammar makes. -/
theorem IsScript.inside {u : Tree} (h : IsScript d t) (hu : u ∈ Tree.preorderAll t.children) :
    Made d u := by
  obtain ⟨-, -, hall⟩ := h
  exact made_insideAll (fun c hc => .formed (hall c hc)) hu

theorem IsScript.fits (h : IsScript d t) : ∀ u ∈ t.preorder, u.fits = true := by
  intro u hu
  have hu : u = t ∨ u ∈ Tree.preorderAll t.children := by
    cases t
    exact List.mem_cons.mp hu
  rcases hu with rfl | hu
  · obtain ⟨hdata, -, hall⟩ := h
    exact fits_node hdata.core (List.all_eq_true.mpr fun t ht => (hall t ht).isStatement)
  · exact (h.inside hu).fits

end
end ScriptPress
