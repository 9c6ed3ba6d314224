import ScriptPress.Options

/-! # Arguments

What the words of a command line ask for. Settings that every command shares may stand before or
after the name of the command, and those after it count. Other words are refused: options that the
command does not have, options given twice, values that are missing or have the wrong form, and
files too many or too few.
-/
namespace ScriptPress

/-- The layout settings of the format command. -/
structure LayoutChoice where
  offset : Option Nat := none
  indent : Option Nat := none
  setback : Option Nat := none
  tabs : Bool := false
  blankBeforeLabel : Bool := false
  deriving Repr, DecidableEq

namespace LayoutChoice

/-- Puts the settings over those of a layout. Switches add to it. -/
def apply (c : LayoutChoice) (l : Layout) : Layout where
  offset := c.offset.getD l.offset
  indent := c.indent.getD l.indent
  setback := c.setback.getD l.setback
  tabs := l.tabs || c.tabs
  blankBeforeLabel := l.blankBeforeLabel || c.blankBeforeLabel

end LayoutChoice

inductive Command where
  | crunch (input : String) (output : Option String)
  | format (input : String) (output : Option String) (layout : LayoutChoice)
  | strip (input : String) (output : Option String) (checked : Bool)
  | check (inputs : List String) (report : Bool)
  | tree (input : String) (functions report : Bool)
  deriving Repr, DecidableEq

/-- The files a command reads. -/
def Command.inputs : Command → List String
  | .crunch input _ | .format input _ _ | .strip input _ _ | .tree input _ _ => [input]
  | .check inputs _ => inputs

/-- A whole command line. -/
structure Invocation where
  version : Option Float := none
  optionsFile : Option String := none
  warnings : Bool := false
  locale : Option String := none
  command : Command
  deriving Repr

/-- Every file an invocation reads, the options file first. -/
def Invocation.inputs (i : Invocation) : List String :=
  i.optionsFile.getD Options.defaultFile :: i.command.inputs

namespace CommandLine

/-- The options of the commands. -/
inductive Opt where
  | version | optionsFile | warnings | locale
  | output | noCheck | report | functions
  | offset | indent | setback | tabs | blankLine
  deriving Repr, DecidableEq

namespace Opt

def longName : Opt → String
  | version => "js-version"
  | optionsFile => "config"
  | warnings => "warnings"
  | locale => "locale"
  | output => "output"
  | noCheck => "no-check"
  | report => "json"
  | functions => "functions"
  | offset => "offset"
  | indent => "indent"
  | setback => "label-setback"
  | tabs => "tabs"
  | blankLine => "blank-line"

def shortName? : Opt → Option Char
  | output => some 'o'
  | _ => none

/-- Whether an option is followed by a value. -/
def takesValue : Opt → Bool
  | version | optionsFile | locale | output | offset | indent | setback => true
  | _ => false

/-- The options of every command. -/
def shared : List Opt := [version, optionsFile, warnings, locale]

end Opt

/-- The commands, and the options that each has beside the shared ones. -/
def commandOptions : List (String × List Opt) :=
  [("crunch", [.output]),
   ("format", [.output, .offset, .indent, .setback, .tabs, .blankLine]),
   ("strip", [.output, .noCheck]),
   ("check", [.report]),
   ("tree", [.functions, .report])]

/-- A whole number with an optional sign that fits a width. -/
def readColumns? (value : String) : Option Nat :=
  let (negative, digits) := Text.splitSign value.toList
  let n := Text.digitsValue digits
  if digits ≠ [] ∧ digits.all Text.isDigit ∧ n < Text.twoTo 32 ∧ (negative → n = 0) then some n
  else none

/-- Whether a value has the form its option asks for. -/
def acceptsValue (o : Opt) (value : String) : Bool :=
  match o with
  | .version => (Text.readDouble? value.toList).isSome
  | .optionsFile | .output => value != ""
  | .offset | .indent | .setback => (readColumns? value).isSome
  | _ => true

/-- The words of one level of a command line: the options with their values, and the files. -/
structure Words where
  options : List (Opt × String) := []
  files : List String := []
  deriving Repr

/-- Adds an option, once. -/
def Words.add? (w : Words) (o : Opt) (value : String) : Option Words :=
  if w.options.any (·.1 == o) || !acceptsValue o value then none
  else some { w with options := w.options ++ [(o, value)] }

def Words.has (w : Words) (o : Opt) : Bool := w.options.any (·.1 == o)

def Words.value? (w : Words) (o : Opt) : Option String :=
  (w.options.find? (·.1 == o)).map (·.2)

/-- Adds a file, which must have a name. -/
def Words.addFile? (w : Words) (file : String) : Option Words :=
  if file = "" then none else some { w with files := w.files ++ [file] }

/-- Whether a word stands for itself rather than for an option. -/
def isPlain (word : String) : Bool :=
  match word.toList with
  | '-' :: _ :: _ => false
  | _ => true

/-- A word that begins with dashes: an option, and the value written behind it in the same
word. -/
def readOption? (allowed : List Opt) (word : String) : Option (Opt × Option String) :=
  match word.toList with
  | '-' :: '-' :: name =>
    let (name, value) := name.span (· ≠ '=')
    let value := match value with
      | [] => none
      | _ :: value => some (String.ofList value)
    (allowed.find? (·.longName == String.ofList name)).map fun o => (o, value)
  | '-' :: name :: value =>
    let value := match value with
      | [] => none
      | '=' :: value => some (String.ofList value)
      | value => some (String.ofList value)
    (allowed.find? (·.shortName? == some name)).map fun o => (o, value)
  | _ => none

/-- Reads words up to the first that `stop` takes for the name of a command; what follows it is
left. After a lone `--` all words are files. -/
def readWords? (allowed : List Opt) (stop : String → Bool) (w : Words) :
    List String → Option (Words × List String)
  | [] => some (w, [])
  | word :: rest =>
    if word = "--" then
      (rest.foldlM (fun (w : Words) file => w.addFile? file) w).map fun w => (w, [])
    else if isPlain word then
      if stop word then some (w, word :: rest)
      else
        match w.addFile? word with
        | none => none
        | some w => readWords? allowed stop w rest
    else
      match readOption? allowed word with
      | none => none
      | some (o, value?) =>
        if o.takesValue then
          match value? with
          | some value =>
            match w.add? o value with
            | none => none
            | some w => readWords? allowed stop w rest
          | none =>
            match rest with
            | [] => none
            | value :: rest =>
              if isPlain value then
                match w.add? o value with
                | none => none
                | some w => readWords? allowed stop w rest
              else none
        else if value?.isSome then none
        else
          match w.add? o "" with
          | none => none
          | some w => readWords? allowed stop w rest

def layoutChoice (w : Words) : LayoutChoice where
  offset := (w.value? .offset).bind readColumns?
  indent := (w.value? .indent).bind readColumns?
  setback := (w.value? .setback).bind readColumns?
  tabs := w.has .tabs
  blankBeforeLabel := w.has .blankLine

/-- The command a name and the words after it ask for. -/
def readCommand? (name : String) (w : Words) : Option Command :=
  match name, w.files with
  | "crunch", [input] => some (.crunch input (w.value? .output))
  | "format", [input] => some (.format input (w.value? .output) (layoutChoice w))
  | "strip", [input] => some (.strip input (w.value? .output) (!w.has .noCheck))
  | "check", input :: inputs => some (.check (input :: inputs) (w.has .report))
  | "tree", [input] =>
    if w.has .report && !w.has .functions then none
    else some (.tree input (w.has .functions) (w.has .report))
  | _, _ => none

/-- Reads a command line. -/
def readInvocation? (args : List String) : Option Invocation := do
  let isCommand (word : String) : Bool := commandOptions.any (·.1 == word)
  let (before, rest) ← readWords? Opt.shared (fun _ => true) {} args
  match rest with
  | [] => none
  | name :: rest =>
    if isCommand name && before.files.isEmpty then
      let allowed := Opt.shared ++ ((commandOptions.find? (·.1 == name)).map (·.2)).getD []
      let (after, _) ← readWords? allowed (fun _ => false) {} rest
      let command ← readCommand? name after
      let value? (o : Opt) : Option String := (after.value? o).or (before.value? o)
      return {
        version := (value? .version).bind fun v => Text.readDouble? v.toList
        optionsFile := value? .optionsFile
        warnings := before.has .warnings || after.has .warnings
        locale := value? .locale
        command }
    else none

end CommandLine
end ScriptPress
