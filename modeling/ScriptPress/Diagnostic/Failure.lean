import ScriptPress.Diagnostic.Problem

/-! # Failures

The ways an operation can fail. Each failure is a cause; `message` words it.
-/
namespace ScriptPress

/-- A problem at a line of the text. -/
structure Diagnostic where
  line : Nat
  problem : Problem
  deriving Repr, DecidableEq

/-- Why a file cannot be used: one of the usual reasons, or the one the system gives. -/
inductive FileProblem where
  | missing | isDirectory | notADirectory | notText
  | other (reason : String)
  deriving Repr, DecidableEq

/-- What is wrong with one line of an options file. -/
inductive OptionProblem where
  | noValue
  | malformedVersion (text : String)
  | unsupportedVersion (text : String)
  | unknownLocale (text : String)
  | badBoolean (key text : String)
  | badWidth (key text : String)
  deriving Repr, DecidableEq

inductive Failure where
  | script (source : String) (line : Nat) (message : String)
  | unsupportedVersion (text : String)
  | emptyScript
  | functionIndex (index count : Nat)
  | options (line : Nat) (problem : OptionProblem)
  | unreadable (path : String) (problem : FileProblem)
  deriving Repr, DecidableEq

def unsupportedVersionMessage (text : String) : String :=
  "Unsupported JavaScript version: " ++ text

namespace FileProblem

def message : FileProblem → String
  | missing => "No such file or directory (os error 2)"
  | isDirectory => "Is a directory (os error 21)"
  | notADirectory => "Not a directory (os error 20)"
  | notText => "stream did not contain valid UTF-8"
  | other reason => reason

end FileProblem

namespace OptionProblem

def message : OptionProblem → String
  | noValue => "expected key = value"
  | malformedVersion text => "invalid version " ++ Text.quotedText text
  | unsupportedVersion text => unsupportedVersionMessage text
  | unknownLocale text => "unknown locale " ++ Text.quotedText text
  | badBoolean key text => key ++ " expects a boolean, got " ++ Text.quotedText text
  | badWidth key text => key ++ " expects a column count, got " ++ Text.quotedText text

end OptionProblem

namespace Failure

/-- A diagnostic of the named source, worded in a language. -/
def ofDiagnostic (source : String) (locale : Locale) (d : Diagnostic) : Failure :=
  .script source d.line (d.problem.message locale)

def message : Failure → String
  | script source line message => source ++ ":" ++ toString line ++ ": " ++ message
  | unsupportedVersion text => unsupportedVersionMessage text
  | emptyScript => "Invalid argument: script text is empty"
  | functionIndex index count =>
    "Invalid argument: function index " ++ toString index ++ " out of range (" ++ toString count
      ++ " functions)"
  | options line problem =>
    "Configuration error: line " ++ toString line ++ ": " ++ problem.message
  | unreadable path problem => "IO error on " ++ path ++ ": " ++ problem.message

def inScript : Failure → Bool
  | script _ _ _ => true
  | _ => false

end Failure
end ScriptPress
