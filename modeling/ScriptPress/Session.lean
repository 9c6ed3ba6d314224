import ScriptPress.CommentRemoval
import ScriptPress.Grammar.Script
import ScriptPress.Render.Statement

/-! # Sessions

A session holds the settings for a series of calls: the dialect, the language and the name that
diagnostics go by, and whether warnings are delivered. A call that reads a script hands each of its
warnings to every listener, and does so only when the whole script could be read.
-/
namespace ScriptPress

namespace Script

/-- The warnings of a script in a language. -/
def warnings (s : Script) (locale : Locale) : List Warning :=
  s.concerns.map fun (concern, line) =>
    { concern, message := concern.message locale, source := s.source, line }

def render (s : Script) (o : RenderOptions) : String := Render.script o s.tree

end Script

/-- Listeners are known by numbers. -/
abbrev ListenerId := Int

structure Session where
  dialect : Dialect := .latest
  locale : Locale := .english
  warnings : Bool := false
  source : String := "<script>"
  listeners : List ListenerId := []
  deriving Repr, DecidableEq, Inhabited

namespace Session

/-- A change of one setting. -/
inductive Setting where
  | dialect (d : Dialect)
  | locale (l : Locale)
  | warnings (on : Bool)
  | source (name : String)
  | listener (id : ListenerId)
  | noListeners
  deriving Repr, DecidableEq

def set (s : Session) : Setting → Session
  | .dialect d => { s with dialect := d }
  | .locale l => { s with locale := l }
  | .warnings on => { s with warnings := on }
  | .source name => { s with source := name }
  | .listener id => { s with listeners := s.listeners ++ [id] }
  | .noListeners => { s with listeners := [] }

/-- A warning on its way to a listener. -/
structure Delivery where
  listener : ListenerId
  warning : Warning
  deriving Repr, DecidableEq

/-- What a call answers, and what it delivered. -/
structure Outcome (α : Type) where
  result : Except Failure α
  delivered : List Delivery

namespace Outcome

def map {α β : Type} (f : α → β) (o : Outcome α) : Outcome β :=
  ⟨o.result.map f, o.delivered⟩

def failed {α : Type} (f : Failure) : Outcome α := ⟨.error f, []⟩

end Outcome

def settings (s : Session) (keepComments : Bool) : ReadSettings :=
  { source := s.source, dialect := s.dialect, keepComments }

/-- Each warning goes to every listener before the next one does. -/
def deliveries (s : Session) (warnings : List Warning) : List Delivery :=
  if s.warnings then warnings.flatMap fun w => s.listeners.map fun l => ⟨l, w⟩ else []

def failure (s : Session) (d : Diagnostic) : Failure := .ofDiagnostic s.source s.locale d

/-- Reads a text as a script. An empty text is refused. -/
def readWith (s : Session) (keepComments : Bool) (text : String) : Outcome Script :=
  if text.isEmpty then .failed .emptyScript
  else
    match Script.read (s.settings keepComments) text with
    | .error d => .failed (s.failure d)
    | .ok script => ⟨.ok script, s.deliveries (script.warnings s.locale)⟩

def parse (s : Session) (text : String) : Outcome Script := s.readWith false text

/-- Answers nothing but whether the text is a script. -/
def check (s : Session) (text : String) : Outcome Unit := (s.parse text).map fun _ => ()

/-- Answers `false` for a text that is no script. -/
def isScript (s : Session) (text : String) : Outcome Bool :=
  let outcome := s.check text
  match outcome.result with
  | .ok () => ⟨.ok true, outcome.delivered⟩
  | .error f => ⟨if f.inScript then .ok false else .error f, outcome.delivered⟩

/-- The compact form of a script. -/
def compact (s : Session) (text : String) : Outcome String :=
  (s.parse text).map (·.render .compactForm)

/-- A script in expanded form with its comments. -/
def format (s : Session) (text : String) (layout : Layout) : Outcome String :=
  (s.readWith true text).map (·.render (.expanded layout true))

/-- A script without comments, in expanded form without indentation. -/
def dropComments (s : Session) (text : String) : Outcome String :=
  (s.parse text).map (·.render (.expanded .flat false))

/-- A text without comments and otherwise as it was, whether it is a script or not. -/
def cutComments (s : Session) (text : String) : Outcome String :=
  if text.isEmpty then .failed .emptyScript
  else ⟨(removeCommentsByTokens text s.dialect).mapError s.failure, []⟩

/-- Removes comments, by the grammar or by the tokens alone. -/
def clearComments (s : Session) (text : String) (checked : Bool) : Outcome String :=
  if checked then s.dropComments text else s.cutComments text

/-! ## Runs -/

inductive Call where
  | compact (text : String)
  | tree (text : String)
  | check (text : String)
  | isScript (text : String)
  | dropComments (text : String)
  | clearComments (text : String) (checked : Bool)
  | format (text : String) (layout : Layout)
  deriving Repr, DecidableEq

inductive Reply where
  | text (s : String)
  | flag (b : Bool)
  deriving Repr, DecidableEq

def call (s : Session) : Call → Outcome Reply
  | .compact text => (s.compact text).map .text
  | .tree text => (s.parse text).map fun script => .text script.tree.dump
  | .check text => (s.check text).map fun _ => .flag true
  | .isScript text => (s.isScript text).map .flag
  | .dropComments text => (s.dropComments text).map .text
  | .clearComments text checked => (s.clearComments text checked).map .text
  | .format text layout => (s.format text layout).map .text

inductive Step where
  | set (setting : Setting)
  | call (call : Call)
  deriving Repr, DecidableEq

/-- A step changes the settings or answers a call. -/
def step (s : Session) : Step → Session × Option (Outcome Reply)
  | .set setting => (s.set setting, none)
  | .call c => (s, some (s.call c))

/-- The answers to some steps, in order. -/
def run (s : Session) : List Step → List (Option (Outcome Reply))
  | [] => []
  | first :: rest => (s.step first).2 :: (s.step first).1.run rest

end Session
end ScriptPress
