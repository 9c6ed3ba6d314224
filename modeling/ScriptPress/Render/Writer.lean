import ScriptPress.Layout
import ScriptPress.Text.CharClass

/-! # The writer

Collects the tokens of a script. Two tokens that would read back as other tokens when they touch
are kept apart by a space. Compact output holds the semicolon after a statement back until the next
token, since none is needed before a closing brace or at the end. Expanded output begins each line
at its column.
-/
namespace ScriptPress

/-- Output in the making. The characters are kept with the last one first; `lastChar` and
`charBefore` are those of the tokens, without the spaces put between them. -/
structure Writer where
  layout : Layout
  compact : Bool
  written : List Char := []
  level : Nat := 0
  atLineStart : Bool := true
  setBack : Bool := false
  lastChar : Option Char := none
  charBefore : Option Char := none
  afterRegExp : Bool := false
  afterOpenNumber : Bool := false
  owesSemicolon : Bool := false
  deriving Repr

namespace Writer

def push (w : Writer) (text : List Char) : Writer :=
  { w with written := text.reverse ++ w.written }

/-- Writes a text as it is. -/
def raw (w : Writer) (text : List Char) : Writer :=
  let reversed := text.reverse
  { w with
    written := reversed ++ w.written
    lastChar := reversed.head?
    charBefore := reversed.tail.head?.or w.lastChar
    atLineStart := false }

/-- The column of the current line. -/
def column (w : Writer) : Nat :=
  let column := w.layout.offset + w.level * w.layout.indent
  if w.setBack then column - w.layout.setback else column

def writeIndent (w : Writer) : Writer :=
  { w.push (w.layout.indentation w.column) with atLineStart := false }

/-- The characters of words, a backslash of an escape included. -/
def isWordChar (c : Char) : Bool := Text.isIdentPart c || c == '\\'

/-- Two characters that make a longer operator or open a comment when they touch. -/
def fuses (before : Option Char) : Char → Char → Bool
  | '+', '+' | '-', '-' | '/', '/' | '/', '*' | '<', '!' => true
  | '-', '>' => before == some '-'
  | _, _ => false

/-- Whether a token that begins with `first` must be kept apart from the last one. -/
def needsSpace (w : Writer) (first : Char) : Bool :=
  match w.lastChar with
  | none => false
  | some last =>
    if last == ' ' || last == '\n' then false
    else (isWordChar first && (isWordChar last || w.afterRegExp || w.afterOpenNumber))
      || fuses w.charBefore last first

/-- Writes the semicolon owed to the last statement, unless a closing brace makes it needless. -/
def settle (w : Writer) (next : List Char) : Writer :=
  if w.owesSemicolon then
    let w := { w with owesSemicolon := false }
    if next == ['\x7d'] then w else w.raw [';']
  else w

/-- Sets a token off from what comes before it. -/
def separate (w : Writer) (first : Char) : Writer :=
  if w.atLineStart && !w.compact then w.writeIndent
  else if w.needsSpace first then w.push [' ']
  else w

/-- Writes a token. -/
def token (w : Writer) (text : String) : Writer :=
  let chars := text.toList
  match chars with
  | [] => w
  | first :: _ =>
    { (((w.settle chars).separate first).raw chars) with
      afterRegExp := false, afterOpenNumber := false }

/-- Writes a regular expression; its flags must not grow by a word that follows. -/
def regExp (w : Writer) (text : String) : Writer := { w.token text with afterRegExp := true }

/-- Writes a number; one that ends in a point must not run into a word that follows. -/
def number (w : Writer) (text : String) : Writer :=
  { w.token text with afterOpenNumber := text.toList.getLast? == some '.' }

/-- Writes a space that only expanded output has. -/
def space (w : Writer) : Writer :=
  if w.compact || w.atLineStart then w
  else { w.push [' '] with charBefore := w.lastChar, lastChar := some ' ' }

/-- Ends a statement. -/
def semicolon (w : Writer) : Writer :=
  if w.compact then { w with owesSemicolon := true } else w.token ";"

/-- Writes a semicolon that must stay. -/
def hardSemicolon (w : Writer) : Writer := w.token ";"

/-- Ends the line, in expanded output. -/
def newline (w : Writer) : Writer :=
  if w.compact || w.atLineStart then w
  else { w.push ['\n'] with atLineStart := true, setBack := false }

/-- Leaves an empty line, unless there is one or nothing comes before it. -/
def blankLine (w : Writer) : Writer :=
  if w.compact then w
  else
    let w := w.newline
    match w.written with
    | [] => w
    | '\n' :: '\n' :: _ => w
    | _ => w.push ['\n']

def indent (w : Writer) : Writer := { w with level := w.level + 1 }

def outdent (w : Writer) : Writer := { w with level := w.level - 1 }

/-- Moves the line that is about to begin left by the setback. -/
def setBackLine (w : Writer) : Writer := { w with setBack := true }

/-- Writes a comment on a line of its own. -/
def comment (w : Writer) (text : String) : Writer :=
  if w.compact then w else (w.newline.writeIndent.raw text.toList).newline

/-- One line feed in the place of several at the end; the last character comes first. -/
def dropBlankLines : List Char → List Char
  | '\n' :: '\n' :: rest => dropBlankLines ('\n' :: rest)
  | text => text

/-- The finished output. Expanded output ends in one line feed. -/
def finish (w : Writer) : String :=
  let written :=
    if w.compact then w.written
    else dropBlankLines (if w.atLineStart then w.written else '\n' :: w.written)
  String.ofList written.reverse

end Writer

/-- An instruction to the writer. `missing` stands in the place of a part that a node must have and
does not; nothing can be written for it. -/
inductive WriterStep where
  | token (text : String)
  | regExp (text : String)
  | number (text : String)
  | comment (text : String)
  | space | semicolon | hardSemicolon | newline | blankLine | indent | outdent | setBackLine
  | missing
  deriving Repr, DecidableEq

namespace Writer

def step (w : Writer) : WriterStep → Writer
  | .token text => w.token text
  | .regExp text => w.regExp text
  | .number text => w.number text
  | .comment text => w.comment text
  | .space => w.space
  | .semicolon => w.semicolon
  | .hardSemicolon => w.hardSemicolon
  | .newline => w.newline
  | .blankLine => w.blankLine
  | .indent => w.indent
  | .outdent => w.outdent
  | .setBackLine => w.setBackLine
  | .missing => w

def run (w : Writer) (steps : List WriterStep) : Writer := steps.foldl step w

end Writer
end ScriptPress
