import ScriptPress.Diagnostic.Warning
import ScriptPress.Token.Lexer
import ScriptPress.Tree.Basic

/-! # Reading a script

The state of a reading: the current token and the lexer after it, the comments not yet attached,
the names and functions of the current scope, and the statements that jumps can go to. A reading
goes one token at a time and stops at the first problem.
-/
namespace ScriptPress
namespace Grammar

/-- What is known of the script or the function body being read. -/
structure Scope where
  function? : Option NodeId := none
  vars : List String := []
  uses : List String := []
  functions : List NodeId := []
  requiresActivation : Bool := false
  checksThis : Bool := false
  deriving Repr

/-- A statement that an unlabelled jump can go to; continues go to loops only. -/
structure JumpTarget where
  id : NodeId
  isLoop : Bool
  deriving Repr

/-- A label in force, and the loop it stands for, directly or through further labels. -/
structure LabelEntry where
  name : String
  id : NodeId
  loop? : Option NodeId := none
  deriving Repr

/-- Targets and labels are kept with the innermost first. `pendingLabels` are those directly in
front of the statement to be read. `comments` are those not yet attached, `heard` are all that
were met so far. `previousStop` is where the last token taken stops, and `omitted` are the places
where a statement ended without its semicolon. -/
structure State where
  lexer : Lexer
  current : Token
  previousLine : Nat
  previousStop : Nat := 0
  comments : List String := []
  heard : List String := []
  taken : List Token := []
  scope : Scope := {}
  targets : List JumpTarget := []
  labels : List LabelEntry := []
  pendingLabels : List NodeId := []
  jumps : List (NodeId × NodeId) := []
  concerns : List (Concern × Nat) := []
  omitted : List Nat := []
  nextId : Nat := 0
  deriving Repr

/-- The tokens of the text taken so far, in their order. What stands for a token before the first
one is none of them. -/
def State.tokens (s : State) : List Token := s.taken.reverse.filter (·.tag != .endOfInput)

abbrev Reading := StateT State (Except Diagnostic)

/-- The outcome of one turn of a loop. -/
inductive Turn (α β : Type) where
  | again (a : α)
  | done (b : β)

/-! ## Problems and concerns -/

def failAt {α : Type} (line : Nat) (p : Problem) : Reading α := throw ⟨line, p⟩

def fail {α : Type} (p : Problem) : Reading α := do failAt (← get).current.line p

/-- The problem of a token that no expression begins with. -/
def unexpected {α : Type} : Reading α := do
  let t := (← get).current
  match t.tag with
  | .endOfInput | .semicolon | .rightParen | .rightBracket | .rightBrace => fail (.missing .operand)
  | _ => fail (.unexpected t.shown)

def warn (c : Concern) (line : Nat) : Reading Unit :=
  modify fun s => { s with concerns := s.concerns ++ [(c, line)] }

/-- Repeats a step, a number of turns at most. Each turn of the grammar's loops takes a token, so
that the number of tokens left is enough. -/
def iterate {α β : Type} (step : α → Reading (Turn α β)) : Nat → α → Reading β
  | 0, _ => unexpected
  | fuel + 1, a => do
    match ← step a with
    | .again a => iterate step fuel a
    | .done b => pure b

/-! ## Tokens -/

def check (tag : Tag) : Reading Bool := do return (← get).current.tag == tag

/-- Takes the current token and reads the one after it. -/
def advance : Reading Token := do
  let s ← get
  match s.lexer.next with
  | (.error d, _) => throw d
  | (.ok t, lexer) =>
    let (comments, lexer) := lexer.takeComments
    let texts := comments.map Comment.text
    set { s with
      lexer, current := t, previousLine := s.current.line, previousStop := s.current.stop
      comments := s.comments ++ texts, heard := s.heard ++ texts
      taken := s.current :: s.taken }
    return s.current

/-- Takes the current token if it has a tag. -/
def accept (tag : Tag) : Reading Bool := do
  if ← check tag then
    let _ ← advance
    return true
  else return false

/-- Takes the current token, which must have a tag. -/
def expect (tag : Tag) (what : Expected) : Reading Token := do
  if ← check tag then advance else fail (.missing what)

/-- Reads the current token, a slash, again as a regular expression. -/
def rescan : Reading Unit := do
  let s ← get
  match s.lexer.rescan s.current with
  | (.error d, _) => throw d
  | (.ok t, lexer) => set { s with lexer, current := t }

/-- Notes that the last token taken ends a statement without a semicolon. -/
def omitSemicolon : Reading Unit :=
  modify fun s => { s with omitted := s.omitted ++ [s.previousStop] }

/-- Takes the semicolon at the end of a statement. A line break, a closing brace or the end of the
input stands for one. -/
def endStatement : Reading Unit := do
  let s ← get
  if s.current.tag == .semicolon then
    let _ ← advance
  else if s.current.tag == .rightBrace || s.current.tag == .endOfInput
      || s.current.newlineBefore then
    omitSemicolon
    warn .missingSemicolon s.previousLine
  else fail .missingSemicolon

def warnOfKeyword (name : String) (line : Nat) : Reading Unit := do
  match laterKeyword? name (← get).lexer.dialect with
  | some d => warn (.futureKeyword name d) line
  | none => pure ()

/-- A name that is declared: its text and its line. -/
def declaredName (what : Expected) : Reading (String × Nat) := do
  let t := (← get).current
  match t.tag with
  | .identifier => do
    let t ← advance
    warnOfKeyword t.shown t.line
    return (t.shown, t.line)
  | .reserved => fail (.reservedWord t.shown)
  | _ => fail (.missing what)

/-! ## Nodes -/

def freshId : Reading NodeId :=
  modifyGet fun s => (⟨s.nextId⟩, { s with nextId := s.nextId + 1 })

def makeNode (data : Node) (children : List Tree) : Reading Tree := do
  return .node (← freshId) data children

def takeComments : Reading (List String) :=
  modifyGet fun s => (s.comments, { s with comments := [] })

/-- Puts comments on a tree, if there are any. -/
def withComments (kind : PropertyKind) (comments : List String) (t : Tree) : Tree :=
  if comments.isEmpty then t else t.put kind (.texts comments)

/-- Puts the jumps to a statement on its tree, if there are any. -/
def withJumps (t : Tree) : Reading Tree := do
  let jumps := ((← get).jumps.filter (·.1 == t.id)).map (·.2)
  return if jumps.isEmpty then t else t.put .jumps (.nodes jumps)

/-! ## Scopes -/

def modifyScope (f : Scope → Scope) : Reading Unit :=
  modify fun s => { s with scope := f s.scope }

/-- Puts a name into an ascending list of names, once. -/
def insertName (name : String) : List String → List String
  | [] => [name]
  | other :: rest =>
    if name = other then other :: rest
    else if name < other then name :: other :: rest
    else other :: insertName name rest

def declare (name : String) (line : Nat) : Reading Unit := do
  if (← get).scope.vars.contains name then warn (.varRedeclared name) line
  else modifyScope fun s => { s with vars := s.vars ++ [name] }

/-- Notes the use of a name. A use of `arguments` needs an activation record. -/
def noteUse (name : String) : Reading Unit :=
  modifyScope fun s => { s with
    uses := insertName name s.uses
    requiresActivation := s.requiresActivation || name == "arguments" }

def needActivation : Reading Unit :=
  modifyScope ({ · with requiresActivation := true })

/-! ## Jumps -/

def labelNamed? (name : String) (s : State) : Option LabelEntry :=
  s.labels.find? (·.name == name)

/-- A label that stands for a loop when it is one of those right before it. -/
def LabelEntry.before (l : LabelEntry) (pending : List NodeId) (loop : NodeId) : LabelEntry :=
  if pending.contains l.id then { l with loop? := some loop } else l

/-- The state with a statement open for jumps. A loop is what the labels right before it stand
for. -/
def State.within (s : State) (id : NodeId) (isLoop : Bool) (pending : List NodeId) : State :=
  { s with
    targets := ⟨id, isLoop⟩ :: s.targets
    labels := if isLoop then s.labels.map (·.before pending id) else s.labels }

/-- Reads with a statement open for jumps. -/
def withTarget {α : Type} (id : NodeId) (isLoop : Bool) (pending : List NodeId)
    (body : Reading α) : Reading α := do
  let s ← get
  set (s.within id isLoop pending)
  let a ← body
  modify ({ · with targets := s.targets, labels := s.labels })
  return a

/-- The statement a jump goes to. -/
def destination (tag : Tag) (label? : Option String) (line : Nat) : Reading NodeId := do
  let s ← get
  match label? with
  | none =>
    if tag == .kwBreak then
      match s.targets.head? with
      | some t => return t.id
      | none => failAt line .badBreak
    else
      match s.targets.find? (·.isLoop) with
      | some t => return t.id
      | none => failAt line .badContinue
  | some name =>
    match labelNamed? name s with
    | none => failAt line (.undefinedLabel name)
    | some l =>
      if tag == .kwBreak then return l.id
      else
        match l.loop? with
        | some id => return id
        | none => failAt line (.continueToNonLoop name)

end Grammar
end ScriptPress
