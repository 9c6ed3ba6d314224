import ScriptPress.Diagnostic.Failure
import ScriptPress.Layout

/-! # The options file

Settings are read line by line from text of the form `key = value`. Blank lines and lines that
begin with `#` are skipped, keys of no known setting are ignored, and of two lines for one setting
the later one counts.
-/
namespace ScriptPress

/-- The settings of a session, of comment removal and of the expanded layout. With `checked`, a text
must be a script for its comments to be removed. -/
structure Options where
  dialect : Dialect := .latest
  locale : Locale := .english
  warnings : Bool := false
  checked : Bool := true
  layout : Layout := {}
  deriving Repr, DecidableEq, Inhabited

namespace Options

/-- What one line asks for. -/
inductive Setting where
  | dialect (d : Dialect)
  | locale (l : Locale)
  | warnings (on : Bool)
  | checked (on : Bool)
  | offset (width : Nat)
  | indent (width : Nat)
  | setback (width : Nat)
  | tabs (on : Bool)
  | blankBeforeLabel (on : Bool)
  deriving Repr, DecidableEq

def set (o : Options) : Setting → Options
  | .dialect d => { o with dialect := d }
  | .locale l => { o with locale := l }
  | .warnings on => { o with warnings := on }
  | .checked on => { o with checked := on }
  | .offset width => { o with layout := { o.layout with offset := width } }
  | .indent width => { o with layout := { o.layout with indent := width } }
  | .setback width => { o with layout := { o.layout with setback := width } }
  | .tabs on => { o with layout := { o.layout with tabs := on } }
  | .blankBeforeLabel on => { o with layout := { o.layout with blankBeforeLabel := on } }

/-- The file read when none is named. -/
def defaultFile : String := "jscrunch.cfg"

/-- The words for yes and no, in any case. -/
def readBoolean? (text : List Char) : Option Bool :=
  let word := String.ofList (Text.lower text)
  if ["true", "yes", "on", "1"].contains word then some true
  else if ["false", "no", "off", "0"].contains word then some false
  else none

/-- A width: decimal digits for a number of 32 bits, with an optional plus sign. -/
def readWidth? (text : List Char) : Option Nat :=
  let digits := match text with
    | '+' :: rest => rest
    | _ => text
  if digits ≠ [] ∧ digits.all Text.isDigit ∧ Text.digitsValue digits < Text.twoTo 32 then
    some (Text.digitsValue digits)
  else none

def readVersion (text : List Char) : Except OptionProblem Dialect :=
  match Text.readDouble? text with
  | none => .error (.malformedVersion (String.ofList text))
  | some value =>
    match Dialect.ofNumber? value with
    | none => .error (.unsupportedVersion (Text.doubleText value))
    | some d => .ok d

/-- Reads the value of a key; no setting where the key is unknown. -/
def readSetting (key : String) (value : List Char) : Except OptionProblem (Option Setting) :=
  let boolean (make : Bool → Setting) : Except OptionProblem (Option Setting) :=
    match readBoolean? value with
    | some on => .ok (some (make on))
    | none => .error (.badBoolean key (String.ofList value))
  let width (make : Nat → Setting) : Except OptionProblem (Option Setting) :=
    match readWidth? value with
    | some columns => .ok (some (make columns))
    | none => .error (.badWidth key (String.ofList value))
  match key with
  | "version" => (readVersion value).map fun d => some (.dialect d)
  | "locale" =>
    match Locale.ofTag? (String.ofList value) with
    | some l => .ok (some (.locale l))
    | none => .error (.unknownLocale (String.ofList value))
  | "warnings" => boolean .warnings
  | "check_syntax" => boolean .checked
  | "offset" => width .offset
  | "indent" => width .indent
  | "label_setback" => width .setback
  | "use_tabs" => boolean .tabs
  | "blank_line_before_label" => boolean .blankBeforeLabel
  | _ => .ok none

/-- Reads one line, white space around it, its key and its value aside. -/
def readLine (line : List Char) : Except OptionProblem (Option Setting) :=
  let line := Text.trim line
  if line = [] ∨ line.head? = some '#' then .ok none
  else if line.contains '=' then
    let (key, value) := line.span (· ≠ '=')
    readSetting (String.ofList (Text.trim key)) (Text.trim (value.drop 1))
  else .error .noValue

/-- The lines of a text, each without the line feed that ends it. -/
def splitLines : List Char → List (List Char)
  | [] => [[]]
  | '\n' :: rest => [] :: splitLines rest
  | c :: rest =>
    match splitLines rest with
    | line :: lines => (c :: line) :: lines
    | [] => [[c]]

/-- Applies numbered lines in order, up to the first bad one. -/
def readLines (o : Options) (number : Nat) : List (List Char) → Except Failure Options
  | [] => .ok o
  | line :: rest =>
    match readLine line with
    | .error problem => .error (.options number problem)
    | .ok setting? => readLines (setting?.elim o o.set) (number + 1) rest

/-- The options an options file asks for. -/
def read (text : String) : Except Failure Options :=
  readLines {} 1 (splitLines text.toList)

end Options
end ScriptPress
