import ScriptPress.Proofs.Lexical.Next
import ScriptPress.Proofs.Reading.Ensures
import ScriptPress.Proofs.Shape.Formed

/-! # What a reading leaves behind

A state is sane when its token and its comments read back as they are. A part of a reading that
made a tree leaves a sane state with the surroundings it found, has noted what the tree needs, and
has put every comment it met on the tree or kept it for later, in the order of the text.
-/
namespace ScriptPress

/-! ## Traces -/

/-- What reading a tree leaves: the needs of the tree and its comments. -/
structure Trace where
  needs : Needs := {}
  remarks : List String := []
  deriving Repr, DecidableEq

namespace Trace

instance : Append Trace := ⟨fun a b => ⟨a.needs ++ b.needs, a.remarks ++ b.remarks⟩⟩

theorem append_def (a b : Trace) : a ++ b = ⟨a.needs ++ b.needs, a.remarks ++ b.remarks⟩ := rfl

@[simp] theorem empty_append (a : Trace) : {} ++ a = a := by simp [append_def]

@[simp] theorem append_empty (a : Trace) : a ++ {} = a := by simp [append_def]

@[simp] theorem append_assoc (a b c : Trace) : a ++ b ++ c = a ++ (b ++ c) := by
  simp [append_def]

/-- The order in which needs are noted plays no part. -/
theorem needs_comm (needs : Needs) (a : Trace) : ⟨needs, []⟩ ++ a = a ++ ⟨needs, []⟩ := by
  simp [append_def, Needs.append_def, Bool.or_comm]

def sum : List Trace → Trace
  | [] => {}
  | a :: rest => a ++ sum rest

theorem sum_append (as bs : List Trace) : sum (as ++ bs) = sum as ++ sum bs := by
  induction as with
  | nil => simp [sum]
  | cons a as ih => rw [List.cons_append, sum, sum, ih, append_assoc]

theorem sum_empty {α : Type} (as : List α) : sum (as.map fun _ => {}) = {} := by
  induction as with
  | nil => rfl
  | cons a as ih => rw [List.map_cons, sum, ih, empty_append]

end Trace

namespace Tree

def trace (named : Bool) (t : Tree) : Trace := ⟨t.outline.needs named, t.remarks⟩

/-- The traces of the parts of a node, from an index on. -/
def traces (core : Core) (index : Nat) (ts : List Tree) : Trace :=
  ⟨Outline.partsNeeds core index (ts.map outline), remarksAll ts⟩

variable {core : Core} {index : Nat} {named : Bool}

@[simp] theorem traces_nil : traces core index [] = {} := by
  simp [traces, remarksAll, Outline.partsNeeds]

@[simp] theorem traces_cons (t : Tree) (ts : List Tree) :
    traces core index (t :: ts) = t.trace (core.names index) ++ traces core (index + 1) ts := by
  simp [traces, remarksAll, Outline.partsNeeds, trace, Trace.append_def]

theorem traces_append (ts us : List Tree) :
    traces core index (ts ++ us) = traces core index ts ++ traces core (index + ts.length) us := by
  induction ts generalizing index with
  | nil => simp
  | cons t ts ih =>
    rw [List.cons_append, traces_cons, traces_cons, ih, List.length_cons, Trace.append_assoc,
      show index + 1 + ts.length = index + (ts.length + 1) by omega]

theorem traces_eq_sum (ts : List Tree) (h : ∀ i, index ≤ i → core.names i = named) :
    traces core index ts = Trace.sum (ts.map (trace named)) := by
  induction ts generalizing index with
  | nil => simp [Trace.sum]
  | cons t ts ih =>
    rw [traces_cons, List.map_cons, Trace.sum, h index (Nat.le_refl _),
      ih fun i hi => h i (by omega)]

theorem trace_node (id : NodeId) (data : Node) (children : List Tree) :
    (node id data children).trace named = ⟨data.core.needs named
        ++ { activation := Outline.callsEval data.core (children.map outline) }, data.leading⟩
      ++ (if data.core.tag == .kwFunction then ⟨{}, remarksAll children⟩
        else traces data.core 0 children)
      ++ ⟨{}, data.trailing⟩ := by
  rw [trace, outline_node, Outline.needs, remarks]
  split <;> simp [Trace.append_def, traces]

end Tree

/-- The trace of a node that has no comments and is no function. -/
theorem Node.Plain.trace {n : Node} {core : Core} (h : n.Plain core) {named : Bool}
    (hf : (core.tag == .kwFunction) = false) (id : NodeId) (children : List Tree) :
    (Tree.node id n children).trace named = ⟨core.needs named
        ++ { activation := Outline.callsEval core (children.map Tree.outline) }, []⟩
      ++ Tree.traces core 0 children := by
  rw [Tree.trace_node, h.core, h.leading, h.trailing, if_neg (by simp [hf]), Trace.append_empty]

/-- The trace of a node that needs nothing by itself. -/
theorem Tree.trace_parts {n : Node} {core : Core} (h : n.core = core)
    (hf : (core.tag == .kwFunction) = false) (hc : (core.tag == .call) = false)
    (hn : core.needs false = {}) (id : NodeId) (children : List Tree) :
    (node id n children).trace false
      = ⟨{}, n.leading⟩ ++ (traces core 0 children ++ ⟨{}, n.trailing⟩) := by
  have hcall : Outline.callsEval core (children.map outline) = false := by
    rw [Outline.callsEval, hc, Bool.false_and]
  rw [trace_node, h, hn, hcall, if_neg (by simp [hf]), Trace.append_assoc]
  simp [Trace.append_def]

theorem Node.Plain.trace_parts {n : Node} {core : Core} (h : n.Plain core)
    (hf : (core.tag == .kwFunction) = false) (hc : (core.tag == .call) = false)
    (hn : core.needs false = {}) (id : NodeId) (children : List Tree) :
    (Tree.node id n children).trace false = Tree.traces core 0 children := by
  rw [Tree.trace_parts h.core hf hc hn, h.leading, h.trailing, Trace.empty_append,
    Trace.append_empty]

/-- The tags of nodes that need nothing by themselves and name nothing. -/
def Core.isQuiet (c : Core) : Bool :=
  ! [Tag.identifier, .primary, .getProp, .objectLit, .kwVar, .kwBreak, .kwContinue, .kwCatch,
    .kwWith, .call, .kwFunction].contains c.tag

theorem Tree.trace_quiet {n : Node} {core : Core} (h : n.core = core) (hq : core.isQuiet = true)
    (id : NodeId) (children : List Tree) : (node id n children).trace false
      = ⟨{}, n.leading⟩ ++ (Trace.sum (children.map (trace false)) ++ ⟨{}, n.trailing⟩) := by
  obtain ⟨tag, datum, payload, form⟩ := core
  have hnames : ∀ i, Core.names ⟨tag, datum, payload, form⟩ i = false := by
    intro i
    cases tag <;> first | rfl | cases hq
  rw [trace_parts h (by cases tag <;> first | rfl | cases hq)
    (by cases tag <;> first | rfl | cases hq) (by cases tag <;> first | rfl | cases hq),
    traces_eq_sum _ fun i _ => hnames i]

theorem Node.Plain.trace_quiet {n : Node} {core : Core} (h : n.Plain core)
    (hq : core.isQuiet = true) (id : NodeId) (children : List Tree) :
    (Tree.node id n children).trace false = Trace.sum (children.map (Tree.trace false)) := by
  rw [Tree.trace_quiet h.core hq, h.leading, h.trailing, Trace.empty_append, Trace.append_empty]

/-- The use of a name. -/
theorem Tree.trace_name {n : Node} {name : String}
    (h : n.Plain { tag := .identifier, payload := .text name }) (id : NodeId) :
    (node id n []).trace false = ⟨⟨name == "arguments", false⟩, []⟩ := by
  have hneeds : Core.needs false { tag := .identifier, payload := .text name }
      = ⟨name == "arguments", false⟩ := by
    by_cases hname : name = "arguments"
    · subst hname
      rfl
    · have hpayload : (Payload.text name == Payload.text "arguments") = false := by simpa using hname
      have hbeq : (name == "arguments") = false := by simpa using hname
      simp only [Core.needs, hpayload, hbeq]
      rfl
  rw [h.trace rfl, hneeds]
  simp [Outline.callsEval, Needs.append_def]

/-- A name that is no use of a variable needs nothing. -/
theorem IsNamed.trace {ok : String → Prop} {name : String} {t : Tree} (h : IsNamed ok name t) :
    t.trace true = {} := by
  obtain ⟨hplain, -⟩ := h
  rw [hplain.trace rfl, Tree.traces_nil]
  simp [Core.needs, Outline.callsEval, Needs.append_def]

/-- What a function needs stays in it. -/
theorem Tree.trace_function {n : Node} {f : FunctionData}
    (h : n.core = { tag := .kwFunction, payload := .function f }) (id : NodeId) (body : Tree) :
    (node id n [body]).trace false = ⟨{}, n.leading ++ (body.remarks ++ n.trailing)⟩ := by
  rw [trace_node, h]
  change (⟨{}, n.leading⟩ : Trace) ++ ⟨{}, remarksAll [body]⟩ ++ ⟨{}, n.trailing⟩ = _
  simp [remarksAll, Trace.append_def]

namespace Grammar

/-! ## Surroundings -/

/-- What a state knows of the statements and functions around its place. -/
structure Frame where
  dialect : Dialect
  targets : List JumpTarget
  labels : List LabelEntry
  pendingLabels : List NodeId
  function? : Option NodeId

namespace State

def frame (s : State) : Frame :=
  ⟨s.lexer.dialect, s.targets, s.labels, s.pendingLabels, s.scope.function?⟩

def needs (s : State) : Needs := ⟨s.scope.requiresActivation, s.scope.checksThis⟩

end State

/-- The surroundings stay, and no identity is given twice. -/
structure Kept (s s' : State) : Prop where
  frame : s'.frame = s.frame
  nextId : s.nextId ≤ s'.nextId

theorem Kept.refl (s : State) : Kept s s := ⟨rfl, Nat.le_refl _⟩

theorem Kept.trans {s s' s'' : State} (h : Kept s s') (h' : Kept s' s'') : Kept s s'' :=
  ⟨h'.frame.trans h.frame, Nat.le_trans h.nextId h'.nextId⟩

theorem Kept.targets {s s' : State} (h : Kept s s') : s'.targets = s.targets :=
  congrArg Frame.targets h.frame

theorem Kept.labels {s s' : State} (h : Kept s s') : s'.labels = s.labels :=
  congrArg Frame.labels h.frame

theorem Kept.pendingLabels {s s' : State} (h : Kept s s') : s'.pendingLabels = s.pendingLabels :=
  congrArg Frame.pendingLabels h.frame

theorem Kept.function? {s s' : State} (h : Kept s s') : s'.scope.function? = s.scope.function? :=
  congrArg Frame.function? h.frame

theorem Kept.dialect {s s' : State} (h : Kept s s') : s'.lexer.dialect = s.lexer.dialect :=
  congrArg Frame.dialect h.frame

/-- A token of the dialect. -/
def Genuine (d : Dialect) (t : Token) : Prop :=
  t.tag ≠ .endOfInput ∧ t.tag ≠ .regExp ∧ Lexer.IsLexeme d t.sym.spelling.toList t.sym

/-- What holds of a state whatever its current token is. -/
structure Steady (d : Dialect) (s : State) : Prop where
  dialect : s.lexer.dialect = d
  comments : ∀ c ∈ s.comments, Gap.IsComment c.toList
  heard : s.lexer.comments = []
  labels : ∀ l ∈ s.labels, l.id.index < s.nextId

structure Sane (d : Dialect) (s : State) : Prop extends Steady d s where
  current : s.current.tag = .endOfInput ∨ Genuine d s.current
  slash : s.current.isSlash = true →
    ∀ c ∈ (s.current.reopen s.lexer.rest).head?, c ≠ '/' ∧ c ≠ '*'

/-- Some reading led from one state to another and left a trace. -/
structure Passed (d : Dialect) (s s' : State) (trace : Trace) : Prop where
  kept : Kept s s'
  sane : Sane d s'
  needs : s'.needs = s.needs ++ trace.needs
  heard : ∃ more, s'.heard = s.heard ++ more ∧ s.comments ++ more = trace.remarks ++ s'.comments

namespace Passed
variable {d : Dialect} {s s' s'' : State} {a b : Trace}

theorem refl (h : Sane d s) : Passed d s s {} :=
  ⟨Kept.refl s, h, by simp, [], by simp, by simp⟩

theorem trans (h : Passed d s s' a) (h' : Passed d s' s'' b) : Passed d s s'' (a ++ b) := by
  obtain ⟨more, hheard, hcomments⟩ := h.heard
  obtain ⟨more', hheard', hcomments'⟩ := h'.heard
  refine ⟨h.kept.trans h'.kept, h'.sane, ?_, more ++ more', ?_, ?_⟩
  · rw [h'.needs, h.needs, Needs.append_assoc]
    rfl
  · rw [hheard', hheard, List.append_assoc]
  · rw [← List.append_assoc, hcomments, List.append_assoc, hcomments', ← List.append_assoc]
    rfl

theorem cast (h : Passed d s s' a) (hab : a = b) : Passed d s s' b := hab ▸ h

/-- A step that changes neither the text still to be read nor the surroundings. -/
theorem of_same (h : Sane d s) (hlexer : s'.lexer = s.lexer) (hcurrent : s'.current = s.current)
    (hcomments : s'.comments = s.comments) (hheard : s'.heard = s.heard) (hkept : Kept s s')
    (hneeds : s'.needs = s.needs ++ a.needs) (ha : a.remarks = []) : Passed d s s' a := by
  refine ⟨hkept, ⟨⟨?_, ?_, ?_, ?_⟩, ?_, ?_⟩, hneeds, [], by simp [hheard],
    by simp [ha, hcomments]⟩
  · rw [hlexer]
    exact h.dialect
  · rw [hcomments]
    exact h.comments
  · rw [hlexer]
    exact h.heard
  · rw [hkept.labels]
    exact fun l hl => Nat.lt_of_lt_of_le (h.labels l hl) hkept.nextId
  · rw [hcurrent]
    exact h.current
  · rw [hcurrent, hlexer]
    exact h.slash

end Passed

/-! ## Tokens -/

/-- The tokens that come with a text of their own. -/
def isWorded (tag : Tag) : Bool :=
  tag == .identifier || tag == .number || tag == .string || tag == .reserved

theorem Genuine.worded {d : Dialect} {t : Token} (h : Genuine d t) (ht : isWorded t.tag = true) :
    Lexer.IsLexeme d t.shown.toList ⟨t.tag, none, some t.shown⟩ := by
  obtain ⟨-, -, hlexeme⟩ := h
  have htidy := hlexeme.tidy
  obtain ⟨tag, datum, text⟩ := t
  cases tag <;> cases ht
  all_goals
    simp only [Lexer.isTidy, Token.sym, Bool.and_eq_true, Option.isNone_iff_eq_none,
      Option.isSome_iff_exists] at htidy
    obtain ⟨rfl, text, rfl⟩ := htidy
    exact hlexeme

theorem Genuine.sign {d : Dialect} {t : Token} (h : Genuine d t) (ht : isWorded t.tag = false) :
    t.text = none ∧ Lexer.IsSign d t.tag t.datum := by
  obtain ⟨-, -, hlexeme⟩ := h
  have htidy := hlexeme.tidy
  have htext : t.text = none := by
    obtain ⟨tag, datum, text⟩ := t
    cases tag <;> simp_all [Lexer.isTidy, Token.sym, isWorded]
  rw [Token.sym, htext] at hlexeme
  exact ⟨htext, hlexeme⟩

theorem Sane.worded {d : Dialect} {s : State} {tag : Tag} (h : Sane d s)
    (ht : s.current.tag = tag) (hw : isWorded tag = true) :
    Lexer.IsLexeme d s.current.shown.toList ⟨tag, none, some s.current.shown⟩ := by
  subst ht
  refine (h.current.resolve_left fun he => ?_).worded hw
  rw [he] at hw
  cases hw

theorem Sane.sign {d : Dialect} {s : State} {tag : Tag} (h : Sane d s)
    (ht : s.current.tag = tag) (hw : (isWorded tag || tag == .endOfInput) = false) :
    s.current.text = none ∧ Lexer.IsSign d tag s.current.datum := by
  subst ht
  rw [Bool.or_eq_false_iff, beq_eq_false_iff_ne] at hw
  exact (h.current.resolve_left hw.2).sign hw.1

/-- A keyword that comes with no datum. -/
theorem Sane.keyword {d : Dialect} {s : State} {tag : Tag} (h : Sane d s)
    (ht : s.current.tag = tag) (hw : (isWorded tag || tag == .endOfInput) = false)
    (hd : ∀ datum, Lexer.isTidy ⟨tag, some datum, none⟩ = false) : Lexer.IsSign d tag none := by
  obtain ⟨-, hsign⟩ := h.sign ht hw
  cases hdatum : s.current.datum with
  | none => rwa [hdatum] at hsign
  | some datum =>
    rw [hdatum] at hsign
    have htidy := hsign.tidy
    rw [hd] at htidy
    cases htidy

section
variable {d : Dialect} {s : State} {β : Type} {Q : β → State → Prop}

theorem advance_passes (h : Steady d s) :
    Ensures False advance s fun t s' => t = s.current ∧ Passed d s s' {} := by
  refine ensures_iff.mpr fun t s' hm => ?_
  simp only [advance, bind_ok (rfl : (get : Reading State) s = .ok (s, s))] at hm
  cases hnext : s.lexer.next with
  | mk result lexer =>
    rw [hnext] at hm
    cases result with
    | error e => cases hm
    | ok next =>
      obtain ⟨rfl, rfl⟩ := Prod.mk.inj (Except.ok.inj hm)
      have hread := Lexer.next_read hnext
      obtain ⟨more, hmore, hgenuine⟩ := hread.heard
      have hnone : s.lexer.heard = [] := by rw [Lexer.heard, h.heard, List.map_nil]
      rw [hnone, List.nil_append] at hmore
      have htexts : lexer.takeComments.1.map Comment.text = more := hmore
      have hdialect : lexer.dialect = d := hread.like.1.trans h.dialect
      refine ⟨rfl, ⟨?_, Nat.le_refl _⟩, ⟨⟨hdialect, ?_, rfl, h.labels⟩, ?_, hread.slash⟩, ?_,
        more, ?_, ?_⟩
      · simp only [State.frame, Lexer.takeComments, hread.like.1]
      · intro c hc
        simp only [htexts, List.mem_append] at hc
        exact hc.elim (h.comments c) (hgenuine c)
      · rw [← h.dialect]
        exact hread.genuine
      · simp [State.needs]
      · simp only [htexts]
      · simp only [htexts, List.nil_append]

theorem ensures_advance (h : Steady d s) {f : Token → Reading β}
    (hf : ∀ s', Passed d s s' {} → Ensures False (f s.current) s' Q) :
    Ensures False (advance >>= f) s Q := by
  refine (advance_passes h).bind ?_
  rintro t s' ⟨rfl, hs'⟩
  exact hf s' hs'

/-- Takes the current token, which has a tag. -/
theorem ensures_expect (h : Sane d s) {tag : Tag} {what : Expected} {f : Token → Reading β}
    (hf : ∀ s', s.current.tag = tag → Passed d s s' {} → Ensures False (f s.current) s' Q) :
    Ensures False (expect tag what >>= f) s Q := by
  refine Ensures.bind (?_ : Ensures False (expect tag what) s fun t s' =>
    t = s.current ∧ s.current.tag = tag ∧ Passed d s s' {}) ?_
  · refine ensures_ifCheck (fun htag => ?_) fun _ => ensures_fail
    exact (advance_passes h.toSteady).mono fun t s' ⟨ht, hs'⟩ => ⟨ht, htag, hs'⟩
  · rintro t s' ⟨rfl, htag, hs'⟩
    exact hf s' htag hs'

theorem ensures_accept (h : Sane d s) {tag : Tag} {f : Bool → Reading β}
    (hyes : ∀ s', s.current.tag = tag → Passed d s s' {} → Ensures False (f true) s' Q)
    (hno : s.current.tag ≠ tag → Ensures False (f false) s Q) :
    Ensures False (accept tag >>= f) s Q := by
  refine Ensures.bind (?_ : Ensures False (accept tag) s fun b s' =>
    (b = true ∧ s.current.tag = tag ∧ Passed d s s' {})
      ∨ (b = false ∧ s.current.tag ≠ tag ∧ s' = s)) ?_
  · refine ensures_ifCheck (fun htag => ?_) fun htag => ensures_pure (Or.inr ⟨rfl, htag, rfl⟩)
    refine ensures_advance h.toSteady fun s' hs' => ?_
    exact ensures_pure (Or.inl ⟨rfl, htag, hs'⟩)
  · rintro b s' (⟨rfl, htag, hs'⟩ | ⟨rfl, htag, rfl⟩)
    · exact hyes s' htag hs'
    · exact hno htag

/-! ## Steps that take no token -/

theorem ensures_warn (h : Sane d s) {c : Concern} {line : Nat} {f : Unit → Reading β}
    (hf : ∀ s', s'.current = s.current → Passed d s s' {} → Ensures False (f ()) s' Q) :
    Ensures False (warn c line >>= f) s Q :=
  ensures_modify (hf _ rfl (.of_same h rfl rfl rfl rfl ⟨rfl, Nat.le_refl _⟩ (by simp [State.needs])
    rfl))

theorem ensures_omitSemicolon (h : Sane d s) {f : Unit → Reading β}
    (hf : ∀ s', s'.current = s.current → Passed d s s' {} → Ensures False (f ()) s' Q) :
    Ensures False (omitSemicolon >>= f) s Q :=
  ensures_modify (hf _ rfl (.of_same h rfl rfl rfl rfl ⟨rfl, Nat.le_refl _⟩ (by simp [State.needs])
    rfl))

theorem ensures_freshId (h : Sane d s) {f : NodeId → Reading β}
    (hf : ∀ id s', s'.current = s.current → id.index < s'.nextId → s.nextId ≤ id.index →
      Passed d s s' {} → Ensures False (f id) s' Q) : Ensures False (freshId >>= f) s Q :=
  hf ⟨s.nextId⟩ { s with nextId := s.nextId + 1 } rfl (Nat.lt_succ_self _) (Nat.le_refl _)
    (.of_same h rfl rfl rfl rfl ⟨rfl, Nat.le_succ _⟩ (by simp [State.needs]) rfl)

theorem ensures_makeNode (h : Sane d s) {data : Node} {children : List Tree}
    {f : Tree → Reading β}
    (hf : ∀ id s', s'.current = s.current → Passed d s s' {} →
      Ensures False (f (.node id data children)) s' Q) :
    Ensures False (makeNode data children >>= f) s Q :=
  hf ⟨s.nextId⟩ { s with nextId := s.nextId + 1 } rfl
    (.of_same h rfl rfl rfl rfl ⟨rfl, Nat.le_succ _⟩ (by simp [State.needs]) rfl)

theorem ensures_makeNode_last (h : Sane d s) {data : Node} {children : List Tree}
    {Q : Tree → State → Prop}
    (hf : ∀ id s', s'.current = s.current → Passed d s s' {} → Q (.node id data children) s') :
    Ensures False (makeNode data children) s Q :=
  hf ⟨s.nextId⟩ { s with nextId := s.nextId + 1 } rfl
    (.of_same h rfl rfl rfl rfl ⟨rfl, Nat.le_succ _⟩ (by simp [State.needs]) rfl)

theorem ensures_takeComments (h : Sane d s) {f : List String → Reading β}
    (hf : ∀ s', s'.heard = s.heard → Passed d s s' ⟨{}, s.comments⟩ →
      Ensures False (f s.comments) s' Q) : Ensures False (takeComments >>= f) s Q := by
  refine hf { s with comments := [] } rfl ⟨⟨rfl, Nat.le_refl _⟩, ⟨⟨h.dialect, by simp, h.heard,
    h.labels⟩, h.current, h.slash⟩, by simp [State.needs], [], by simp, by simp⟩

theorem ensures_warnOfKeyword (h : Sane d s) {name : String} {line : Nat} {f : Unit → Reading β}
    (hf : ∀ s', s'.current = s.current → Passed d s s' {} → Ensures False (f ()) s' Q) :
    Ensures False (warnOfKeyword name line >>= f) s Q := by
  refine Ensures.bind (P := fun _ s' => s'.current = s.current ∧ Passed d s s' {}) ?_
    fun _ s' ⟨hcurrent, hs'⟩ => hf s' hcurrent hs'
  refine ensures_get ?_
  split
  · exact ensures_warn h fun s' hcurrent hs' => ensures_pure ⟨hcurrent, hs'⟩
  · exact ensures_pure ⟨rfl, .refl h⟩

/-- A change of the scope that adds needs and stays in the function. -/
theorem ensures_modifyScope (h : Sane d s) {change : Scope → Scope} (needs : Needs)
    (hfunction : (change s.scope).function? = s.scope.function?)
    (hneeds : Needs.mk (change s.scope).requiresActivation (change s.scope).checksThis
      = s.needs ++ needs) {f : Unit → Reading β}
    (hf : ∀ s', s'.current = s.current → Passed d s s' ⟨needs, []⟩ → Ensures False (f ()) s' Q) :
    Ensures False (modifyScope change >>= f) s Q :=
  ensures_modify (hf _ rfl (.of_same h rfl rfl rfl rfl
    ⟨by simp [State.frame, hfunction], Nat.le_refl _⟩ hneeds rfl))

end
end Grammar
end ScriptPress
