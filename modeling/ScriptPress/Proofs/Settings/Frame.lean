import ScriptPress.Grammar.Script

/-! # Frames

What a reading meets and makes, seen in a frame: with lines put before the text, and perhaps without
the comments. Nothing else of it changes, and the lexer goes through a text alike in every frame.
-/
namespace ScriptPress

/-- How many lines are put before a text, and whether its comments are kept. -/
structure Framing where
  before : Nat
  comments : Bool

/-! ## Trees -/

namespace Framing

/-- Whether the values of a kind are kept. -/
def keeps (v : Framing) (kind : PropertyKind) : Bool :=
  v.comments || !(kind == .comments || kind == .trailingComments)

/-- A value of a kind. -/
def value (v : Framing) : PropertyKind → PropertyValue → PropertyValue
  | .endLine, .number n => .number (n + v.before)
  | _, value => value

def texts (v : Framing) (texts : List String) : List String := if v.comments then texts else []

end Framing

def Properties.framed (v : Framing) (p : Properties) : Properties :=
  ⟨(p.entries.filter fun e => v.keeps e.1).map fun e => (e.1, v.value e.1 e.2)⟩

def Node.framed (v : Framing) (n : Node) : Node :=
  { n with line := n.line + v.before, properties := n.properties.framed v }

namespace Tree

mutual

def framed (v : Framing) : Tree → Tree
  | node id data children => node id (data.framed v) (framedAll v children)

def framedAll (v : Framing) : List Tree → List Tree
  | [] => []
  | t :: rest => framed v t :: framedAll v rest

end

end Tree

section
variable {v : Framing} {kind : PropertyKind} {value : PropertyValue} {p : Properties} {n : Node}

/-- The kinds whose values are the same in every frame. -/
def PropertyKind.isFixed (kind : PropertyKind) : Bool :=
  kind != .comments && kind != .trailingComments && kind != .endLine

theorem Framing.keeps_fixed (h : kind.isFixed = true) : v.keeps kind = true := by
  simp only [PropertyKind.isFixed, Bool.and_eq_true, bne_iff_ne, ne_eq] at h
  simp [Framing.keeps, h.1.1, h.1.2]

theorem Framing.value_fixed (h : kind.isFixed = true) : v.value kind value = value := by
  cases kind <;> first | rfl | cases h

theorem framed_putIn (entries : List (PropertyKind × PropertyValue)) :
    ((Properties.putIn kind value entries).filter fun e => v.keeps e.1).map
        (fun e => (e.1, v.value e.1 e.2))
      = if v.keeps kind then Properties.putIn kind (v.value kind value)
          ((entries.filter fun e => v.keeps e.1).map fun e => (e.1, v.value e.1 e.2))
        else (entries.filter fun e => v.keeps e.1).map fun e => (e.1, v.value e.1 e.2) := by
  induction entries with
  | nil =>
    rw [Properties.putIn]
    split
    · next h => simp [Properties.putIn, h]
    · next h => simp [h]
  | cons e entries ih =>
    rw [Properties.putIn]
    by_cases hkind : e.1 = kind
    · rw [if_pos hkind]
      subst hkind
      split
      · next h => simp [Properties.putIn, h]
      · next h => simp [h]
    · rw [if_neg hkind, List.filter_cons, List.filter_cons]
      by_cases hkeeps : v.keeps e.1 = true
      · rw [if_pos hkeeps, if_pos hkeeps, List.map_cons, ih, List.map_cons]
        split
        · rw [Properties.putIn, if_neg hkind]
        · rfl
      · rw [if_neg hkeeps, if_neg hkeeps, ih]

theorem Properties.framed_put (p : Properties) (kind : PropertyKind) (value : PropertyValue) :
    (p.put kind value).framed v
      = if v.keeps kind then (p.framed v).put kind (v.value kind value) else p.framed v := by
  rw [Properties.framed, Properties.put, framed_putIn]
  split <;> rfl

theorem Properties.framed_fixed (p : Properties) (value : PropertyValue)
    (h : kind.isFixed = true) : (p.put kind value).framed v = (p.framed v).put kind value := by
  rw [framed_put, if_pos (Framing.keeps_fixed h), Framing.value_fixed h]

theorem Properties.framed_putIf (p : Properties) (value? : Option PropertyValue)
    (h : kind.isFixed = true) :
    (p.putIf kind value?).framed v = (p.framed v).putIf kind value? := by
  cases value? with
  | none => rfl
  | some value => exact framed_fixed p value h

theorem Node.framed_put (n : Node) (value : PropertyValue) (h : kind.isFixed = true) :
    (n.put kind value).framed v = (n.framed v).put kind value := by
  rw [Node.put, Node.framed, Properties.framed_fixed _ _ h]
  rfl

theorem Node.framed_mark (n : Node) (holds : Bool) (h : kind.isFixed = true) :
    (n.mark kind holds).framed v = (n.framed v).mark kind holds := by
  cases holds with
  | false => rfl
  | true =>
    rw [Node.mark, Properties.mark, if_pos rfl, Node.framed, Properties.framed_fixed _ _ h]
    rfl

theorem Properties.get?_framed (p : Properties) (h : kind.isFixed = true) :
    (p.framed v).get? kind = p.get? kind := by
  obtain ⟨entries⟩ := p
  simp only [Properties.framed, Properties.get?]
  congr 1
  induction entries with
  | nil => rfl
  | cons e entries ih =>
    by_cases hkind : e.1 = kind
    · have hkeeps : v.keeps e.1 = true := Framing.keeps_fixed (hkind ▸ h)
      have hvalue : v.value e.1 e.2 = e.2 := Framing.value_fixed (hkind ▸ h)
      rw [List.filter_cons, if_pos hkeeps, List.map_cons,
        List.find?_cons_of_pos (by simpa using hkind), List.find?_cons_of_pos (by simpa using hkind),
        hvalue]
    · rw [List.find?_cons_of_neg (by simpa using hkind), ← ih, List.filter_cons]
      split
      · rw [List.map_cons, List.find?_cons_of_neg (by simpa using hkind)]
      · rfl

@[simp] theorem Node.isNumber_framed (n : Node) : (n.framed v).isNumber = n.isNumber := by
  simp only [Node.isNumber, Properties.flag]
  rw [show (n.framed v).properties = n.properties.framed v from rfl, Properties.get?_framed _ rfl]

@[simp] theorem Node.calleeName?_framed (n : Node) :
    (n.framed v).calleeName? = n.calleeName? := rfl

/-! ### The nodes that readings make -/

theorem framed_number (text : String) (line : Nat) :
    (Node.number text line).framed v = .number text (line + v.before) := Node.framed_mark _ _ rfl

theorem framed_unary (operator : Tag) (line : Nat) :
    (Node.unary operator line).framed v = .unary operator (line + v.before) :=
  Node.framed_mark _ _ rfl

theorem framed_step (tag : Tag) (after : Bool) (line : Nat) :
    (Node.step tag after line).framed v = .step tag after (line + v.before) := by
  rw [Node.step, Node.framed_mark _ _ rfl, Node.framed_mark _ _ rfl]
  rfl

theorem framed_binary (tag : Tag) (datum : Option Tag) (left right : Node) (line : Nat) :
    (Node.binary tag datum left right line).framed v
      = .binary tag datum (left.framed v) (right.framed v) (line + v.before) := by
  rw [Node.binary, Node.framed_mark _ _ rfl, Node.binary, Node.isNumber_framed,
    Node.isNumber_framed]
  rfl

theorem framed_assign (operator : Option Tag) (target value : Node) (line : Nat) :
    (Node.assign operator target value line).framed v
      = .assign operator (target.framed v) (value.framed v) (line + v.before) := by
  unfold Node.assign
  rw [Node.framed_mark _ _ rfl, Node.isNumber_framed, Node.isNumber_framed]
  rfl

theorem framed_call (tag : Tag) (callee : Node) (line : Nat) :
    (Node.call tag callee line).framed v = .call tag (callee.framed v) (line + v.before) := by
  rw [Node.call, Node.framed_mark _ _ rfl, Node.framed_mark _ _ rfl, Node.call,
    Node.calleeName?_framed]
  rfl

theorem framed_jump (tag : Tag) (label? : Option String) (target : NodeId) (line : Nat) :
    (Node.jump tag label? target line).framed v = .jump tag label? target (line + v.before) := by
  cases label? with
  | none => exact Node.framed_put (Node.leaf tag line) (.node target) rfl
  | some label =>
    refine (Node.framed_put ((Node.leaf tag line).put .label (.text label)) (.node target) rfl).trans ?_
    rw [Node.framed_put _ _ rfl]
    rfl

theorem framed_label (name : String) (line : Nat) :
    (Node.label name line).framed v = .label name (line + v.before) := Node.framed_put _ _ rfl

/-! ### Trees as lists and by their parts -/

namespace Tree
variable {t : Tree} {ts us : List Tree}

@[simp] theorem framed_node (id : NodeId) (data : Node) (children : List Tree) :
    (node id data children).framed v = .node id (data.framed v) (framedAll v children) := by
  rw [framed]

theorem framedAll_eq (ts : List Tree) : framedAll v ts = ts.map (framed v) := by
  induction ts with
  | nil => rw [framedAll, List.map_nil]
  | cons t ts ih => rw [framedAll, ih, List.map_cons]

theorem data_framed (t : Tree) : (t.framed v).data = t.data.framed v := by
  cases t
  rw [framed_node]
  rfl

@[simp] theorem id_framed (t : Tree) : (t.framed v).id = t.id := by
  cases t
  rw [framed_node]
  rfl

@[simp] theorem tag_framed (t : Tree) : (t.framed v).tag = t.tag := by
  rw [tag, data_framed]
  rfl

theorem line_framed (t : Tree) : (t.framed v).line = t.line + v.before := by
  rw [line, data_framed]
  rfl

@[simp] theorem datum_framed (t : Tree) : (t.framed v).data.datum = t.data.datum := by
  rw [data_framed]
  rfl

theorem children_framed (t : Tree) : (t.framed v).children = framedAll v t.children := by
  cases t
  rw [framed_node]
  rfl

theorem framed_put {kind : PropertyKind} (t : Tree) (value : PropertyValue)
    (h : kind.isFixed = true) : (t.put kind value).framed v = (t.framed v).put kind value := by
  obtain ⟨id, data, children⟩ := t
  rw [framed_node, put, mapData, framed_node, Node.framed_put _ _ h]
  rfl

end Tree

/-- Comments are put on a tree where they are kept. -/
theorem framed_withComments (h : kind = .comments ∨ kind = .trailingComments)
    (texts : List String) (t : Tree) : (Grammar.withComments kind texts t).framed v
      = Grammar.withComments kind (v.texts texts) (t.framed v) := by
  obtain ⟨id, data, children⟩ := t
  have hvalue : v.value kind (.texts texts) = .texts texts := by rcases h with rfl | rfl <;> rfl
  have hput : (data.put kind (.texts texts)).framed v
      = if v.comments then (data.framed v).put kind (.texts texts) else data.framed v := by
    have hkeeps : v.keeps kind = v.comments := by
      rcases h with rfl | rfl <;> simp [Framing.keeps]
    rw [Node.put, Node.framed, Properties.framed_put, hkeeps, hvalue]
    split <;> rfl
  cases hempty : texts.isEmpty with
  | true =>
    rw [List.isEmpty_iff.mp hempty, Framing.texts, ite_self]
    rfl
  | false =>
    rw [Grammar.withComments, hempty, if_neg Bool.false_ne_true, Tree.put, Tree.mapData,
      Tree.framed_node, hput, Tree.framed_node, Framing.texts]
    cases v.comments with
    | true => simp [Grammar.withComments, hempty, Tree.put, Tree.mapData]
    | false => rfl

end

/-! ## Tokens and lexers -/

def Token.framed (v : Framing) (t : Token) : Token := { t with line := t.line + v.before }

namespace Token
variable {v : Framing} (t : Token)

@[simp] theorem tag_framed : (t.framed v).tag = t.tag := rfl

@[simp] theorem datum_framed : (t.framed v).datum = t.datum := rfl

@[simp] theorem shown_framed : (t.framed v).shown = t.shown := rfl

@[simp] theorem line_framed : (t.framed v).line = t.line + v.before := rfl

@[simp] theorem newlineBefore_framed : (t.framed v).newlineBefore = t.newlineBefore := rfl

@[simp] theorem isSlash_framed : (t.framed v).isSlash = t.isSlash := rfl

end Token

def Comment.framed (v : Framing) (c : Comment) : Comment := { c with line := c.line + v.before }

def Diagnostic.framed (v : Framing) (d : Diagnostic) : Diagnostic :=
  { d with line := d.line + v.before }

def Lexer.framed (v : Framing) (lx : Lexer) : Lexer :=
  { lx with
    line := lx.line + v.before
    keepComments := lx.keepComments && v.comments
    comments := if v.comments then lx.comments.map (Comment.framed v) else [] }

/-- What a lexer answers, and the lexer after it. -/
def Lexer.framedAnswer (v : Framing) :
    Except Diagnostic Token × Lexer → Except Diagnostic Token × Lexer
  | (.error d, lx) => (.error (d.framed v), lx.framed v)
  | (.ok t, lx) => (.ok (t.framed v), lx.framed v)

namespace Lexer
variable {v : Framing}

@[simp] theorem dialect_framed (lx : Lexer) : (lx.framed v).dialect = lx.dialect := rfl

theorem commentsFrom_framed (pieces : List Gap.Piece) (position line : Nat) :
    Gap.commentsFrom position (line + v.before) pieces
      = (Gap.commentsFrom position line pieces).map (Comment.framed v) := by
  induction pieces generalizing position line with
  | nil => rfl
  | cons piece pieces ih =>
    cases piece with
    | blanks text => rw [Gap.commentsFrom, Gap.commentsFrom, Nat.add_right_comm, ih]
    | comment block text =>
      rw [Gap.commentsFrom, Gap.commentsFrom, List.map_cons, Nat.add_right_comm, ih]
      rfl

theorem advance_framed (lx : Lexer) (taken rest : List Char) :
    (lx.framed v).advance taken rest = (lx.advance taken rest).framed v := by
  simp only [advance, framed, Nat.add_right_comm]

theorem pass_framed (lx : Lexer) (gap : Gap) :
    (lx.framed v).pass gap = (lx.pass gap).framed v := by
  have hcomments : ((lx.framed v).pass gap).comments = ((lx.pass gap).framed v).comments := by
    simp only [pass, framed, commentsFrom_framed]
    cases v.comments <;> cases lx.keepComments <;> simp
  rw [pass, advance_framed]
  simp only [pass, framed, Nat.add_right_comm, advance] at hcomments ⊢
  rw [hcomments]

theorem next_framed (lx : Lexer) : (lx.framed v).next = framedAnswer v lx.next := by
  have hpass := pass_framed (v := v) lx (Gap.scan lx.fresh lx.rest)
  have hscan : Gap.scan (lx.framed v).fresh (lx.framed v).rest = Gap.scan lx.fresh lx.rest := rfl
  simp only [next, hscan, hpass]
  generalize Gap.scan lx.fresh lx.rest = gap
  generalize lx.pass gap = here
  obtain ⟨dialect, rest, position, line, fresh, keepComments, comments⟩ := here
  cases gap.unfinished with
  | some text =>
    simp only [advance_framed]
    rfl
  | none =>
    cases rest with
    | nil => rfl
    | cons c rest =>
      simp only [framed]
      cases lexeme dialect c (c :: rest) with
      | error fault =>
        cases hstart : fault.atStart <;>
          simp [framedAnswer, advance, framed, Diagnostic.framed, hstart, Nat.add_right_comm]
      | ok l =>
        simp only [framedAnswer, advance, framed, Token.framed, Nat.add_right_comm]

theorem rescan_framed (lx : Lexer) (slash : Token) :
    (lx.framed v).rescan (slash.framed v) = framedAnswer v (lx.rescan slash) := by
  have hrest : (if (slash.framed v).tag == .assign then '=' :: (lx.framed v).rest
      else (lx.framed v).rest) = if slash.tag == .assign then '=' :: lx.rest else lx.rest := rfl
  simp only [rescan]
  rw [hrest, show (lx.framed v).dialect = lx.dialect from rfl]
  split
  · rfl
  · cases Literal.regExp (if slash.tag == .assign then '=' :: lx.rest else lx.rest) with
    | problem p taken => rfl
    | token taken rest =>
      simp only [framedAnswer, advance, framed, Token.framed, Nat.add_right_comm]

end Lexer
end ScriptPress
