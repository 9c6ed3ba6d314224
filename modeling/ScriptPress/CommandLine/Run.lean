import ScriptPress.CommandLine.Arguments
import ScriptPress.CommandLine.Directory
import ScriptPress.CommandLine.Report
import ScriptPress.FunctionIndex
import ScriptPress.Session

/-! # Commands

Carries out a command line on the files it names. Output and diagnostics are collected, and what was
written before a failure stays. A result that goes to a file is asked for at the end.
-/
namespace ScriptPress

/-- Why a command stopped: what went wrong, and what led to it, the nearest cause first. -/
structure Trouble where
  message : String
  causes : List String := []
  deriving Repr, DecidableEq

namespace Trouble

/-- A failure on its own. A file that cannot be read has its reason as a cause. -/
def ofFailure (f : Failure) : Trouble :=
  match f with
  | .unreadable _ problem => ⟨f.message, [problem.message]⟩
  | _ => ⟨f.message, []⟩

/-- A failure in the course of something. -/
def during (what : String) (f : Failure) : Trouble :=
  let inner := ofFailure f
  ⟨what, inner.message :: inner.causes⟩

/-- A text with white space before all its lines but the first. -/
def hanging (margin : String) (text : String) : String :=
  String.ofList (text.toList.flatMap fun c => if c == '\n' then '\n' :: margin.toList else [c])

def causeLines : Nat → List String → String
  | _, [] => ""
  | n, cause :: rest =>
    "\n    " ++ toString n ++ ": " ++ hanging "       " cause ++ causeLines (n + 1) rest

/-- The text shown for a command that stopped. Several causes are numbered. -/
def text (t : Trouble) : String :=
  let causes := match t.causes with
    | [] => ""
    | [cause] => "\n\nCaused by:\n    " ++ hanging "    " cause
    | causes => "\n\nCaused by:" ++ causeLines 0 causes
  "Error: " ++ t.message ++ causes ++ "\n"

end Trouble

/-- What a command has written so far, and the file it asks for: its path and its text. -/
structure Console where
  stdout : String := ""
  stderr : String := ""
  output? : Option (String × String) := none
  deriving Repr, DecidableEq

/-- What the files at some paths hold. -/
abbrev Files := String → Except FileProblem String

namespace CommandLine

abbrev Run := ReaderT Files (ExceptT Trouble (StateM Console))

def print (text : String) : Run Unit :=
  modify fun c => { c with stdout := c.stdout ++ text }

def complain (text : String) : Run Unit :=
  modify fun c => { c with stderr := c.stderr ++ text }

def orTrouble {α : Type} (trouble : Failure → Trouble) : Except Failure α → Run α
  | .ok a => pure a
  | .error f => throw (trouble f)

def readInput (path : String) : Run String := do
  match (← read) path with
  | .ok text => return text
  | .error p => throw ⟨"Failed to read " ++ path, [p.message]⟩

/-- Gives a result to a file, or to the standard output. -/
def writeOutput (output? : Option String) (text : String) : Run Unit := do
  match output? with
  | none => print text
  | some path => modify fun c => { c with output? := some (path, text) }

def readOptions (files : Files) (path : String) : Except Failure Options :=
  match files path with
  | .ok text => Options.read text
  | .error p => .error (.unreadable path p)

/-- The options of the default file, if there is one. -/
def defaultOptions (files : Files) : Except Failure Options :=
  match files Options.defaultFile with
  | .error .missing => .ok {}
  | _ => readOptions files Options.defaultFile

/-- The options in force: those of the options file, with those of the command line over them. -/
def loadOptions (i : Invocation) : Run Options := do
  let files ← read
  let options ← match i.optionsFile with
    | some path => orTrouble (.during ("Failed to load config " ++ path)) (readOptions files path)
    | none => orTrouble .ofFailure (defaultOptions files)
  let options ← match i.version with
    | none => pure options
    | some number =>
      match Dialect.ofNumber? number with
      | some dialect => pure { options with dialect }
      | none => throw (.ofFailure (.unsupportedVersion (Text.doubleText number)))
  let options ← match i.locale with
    | none => pure options
    | some tag =>
      match Locale.ofTag? tag with
      | some locale => pure { options with locale }
      | none =>
        throw ⟨"Unknown locale " ++ Text.quotedText tag ++ " (expected en or fr)", []⟩
  return { options with warnings := options.warnings || i.warnings }

/-- A session for a file. Its warnings have one listener. -/
def sessionFor (o : Options) (path : String) : Session where
  dialect := o.dialect
  locale := o.locale
  warnings := o.warnings
  source := path
  listeners := [0]

/-- Shows the warnings of a call and goes on with its result. -/
def finish {α : Type} (outcome : Session.Outcome α) : Run α := do
  complain (String.join (outcome.delivered.map fun d => d.warning.text ++ "\n"))
  orTrouble .ofFailure outcome.result

def functionLine (number : Nat) (e : FunctionEntry) : String :=
  String.ofList (List.replicate (2 * e.depth) ' ') ++ "#" ++ toString number ++ " "
    ++ e.data.name.getD "<anonymous>" ++ "(" ++ ", ".intercalate e.data.params ++ ") line "
    ++ toString e.line ++ "\n"

def optional (number? : Option Nat) : Report := number?.elim .null .number

def functionReport (e : FunctionEntry) : Report :=
  .record
    [("name", e.data.name.elim .null .text), ("params", .list (e.data.params.map .text)),
     ("line", .number e.line), ("depth", .number e.depth), ("parent", optional e.parent?)]

def warningReport (w : Warning) : Report :=
  .record
    [("kind", .text w.concern.kindName), ("line", .number w.line), ("message", .text w.message),
     ("source_name", .text w.source)]

/-- The line and the message of a problem in a script. -/
def problemOf? : Except Failure Unit → Option (Nat × String)
  | .error (.script _ line message) => some (line, message)
  | _ => none

def checkReport (path : String) (outcome : Session.Outcome Unit) : Report :=
  let problem? := problemOf? outcome.result
  .record
    [("file", .text path), ("line", optional (problem?.map (·.1))),
     ("message", problem?.elim .null fun p => .text p.2),
     ("valid", .flag problem?.isNone),
     ("warnings", .list (outcome.delivered.map fun d => warningReport d.warning))]

/-- Checks one file. Without a report the verdict is printed. -/
def checkFile (o : Options) (report : Bool) (path : String) : Run (Bool × Report) := do
  let text ← readInput path
  let outcome := (sessionFor o path).check text
  unless report do
    complain (String.join (outcome.delivered.map fun d => d.warning.text ++ "\n"))
  match outcome.result with
  | .ok () => unless report do print (path ++ ": ok\n")
  | .error f =>
    if f.inScript then
      unless report do print (f.message ++ "\n")
    else throw (.during ("Failed to check " ++ path) f)
  return (outcome.result matches .ok _, checkReport path outcome)

def check (o : Options) (inputs : List String) (report : Bool) : Run Nat := do
  let results ← inputs.mapM (checkFile o report)
  if report then print ((Report.list (results.map (·.2))).pretty ++ "\n")
  return if results.all (·.1) then 0 else 1

/-- Shows the tree of a script, or the functions in it. -/
def showTree (o : Options) (input : String) (functions report : Bool) : Run Nat := do
  let text ← readInput input
  let script ← finish ((sessionFor o input).parse text)
  if functions then
    let entries := (FunctionIndex.ofTree script.tree).entries
    if report then print ((Report.list (entries.map functionReport)).pretty ++ "\n")
    else print (String.join (entries.zipIdx.map fun (e, i) => functionLine i e))
  else print script.tree.dump
  return 0

/-- Writes another form of a file to an output. -/
def transform (o : Options) (input : String) (output? : Option String)
    (job : Session → String → Session.Outcome String) : Run Nat := do
  let text ← readInput input
  writeOutput output? (← finish (job (sessionFor o input) text))
  return 0

/-- Carries out an invocation and answers the exit code. -/
def runInvocation (i : Invocation) : Run Nat := do
  let o ← loadOptions i
  match i.command with
  | .crunch input output? => transform o input output? Session.compact
  | .format input output? choice =>
    transform o input output? fun s text => s.format text (choice.apply o.layout)
  | .strip input output? checked =>
    transform o input output? fun s text => s.clearComments text (o.checked && checked)
  | .check inputs report => check o inputs report
  | .tree input functions report => showTree o input functions report

/-- The exit code of a command line that asks for nothing known. -/
def usageCode : Nat := 2

/-- The exit code of a command that stopped. -/
def troubleCode : Nat := 1

/-- Carries out a command line on some files: its exit code and what it wrote. -/
def answer (args : List String) (files : Files) : Nat × Console :=
  match readInvocation? args with
  | none => (usageCode, {})
  | some i =>
    match ((runInvocation i).run files).run.run {} with
    | (.ok code, console) => (code, console)
    | (.error t, console) => (troubleCode, { console with stderr := console.stderr ++ t.text })

/-- The answer of a command whose file could not be written. -/
def notWritten (console : Console) (path : String) (p : FileProblem) : Nat × Console :=
  let trouble : Trouble := ⟨"Failed to write " ++ path, [p.message]⟩
  (troubleCode, { console with stderr := console.stderr ++ trouble.text })

/-- Carries out a command line in a directory, and writes the file it asks for. -/
def run (args : List String) (d : Directory) : (Nat × Console) × Directory :=
  let (code, console) := answer args d.read
  match console.output? with
  | none => ((code, console), d)
  | some (path, text) =>
    match d.write path text with
    | .ok d => ((code, console), d)
    | .error p => (notWritten console path p, d)

end CommandLine
end ScriptPress
