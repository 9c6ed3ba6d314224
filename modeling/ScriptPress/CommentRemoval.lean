import ScriptPress.Token.Stream

/-! # Comment removal without a grammar

Cuts the comments out of a text and keeps every other character as written, so that texts the
grammar refuses can be cleaned too. A comment between two tokens of one line leaves a space, one
that spans lines leaves a line break. Lines a comment was cut from lose the white space at their
end, and go when nothing else is left of them.
-/
namespace ScriptPress
namespace CommentRemoval

/-- A text in the making: its characters, and the places comments were cut from. -/
inductive Item where
  | char (c : Char)
  | cut
  deriving Repr, DecidableEq

/-- Splits a text after a number of bytes. -/
def splitAtByte (count : Nat) : List Char → List Char × List Char
  | [] => ([], [])
  | c :: rest =>
    if count < c.utf8Size then ([], c :: rest)
    else
      let (taken, left) := splitAtByte (count - c.utf8Size) rest
      (c :: taken, left)

/-- What stands in the place of a comment between two characters. -/
def filler (comment : Comment) (before after : Option Char) : List Char :=
  if comment.block && comment.hasNewline then ['\n']
  else
    match before, after with
    | some b, some a => if Text.isWhiteSpace b || Text.isWhiteSpace a then [] else [' ']
    | _, _ => []

/-- Cuts comments, in order, out of a text that begins at a position. -/
def cutFrom (before : Option Char) (position : Nat) (text : List Char) : List Comment → List Item
  | [] => text.map .char
  | comment :: more =>
    let (kept, rest) := splitAtByte (comment.start - position) text
    let rest := (splitAtByte (comment.stop - comment.start) rest).2
    let before := kept.getLast?.or before
    let put := filler comment before rest.head?
    kept.map .char ++ .cut :: put.map .char
      ++ cutFrom (put.getLast?.or before) comment.stop rest more

/-- A line with its line feed, and whether a comment was cut from it. -/
structure Line where
  touched : Bool
  text : List Char
  deriving Repr, DecidableEq

/-- The last line; a cut with no character after it belongs to the line before. -/
def closeLines (touched : Bool) (sofar : List Char) (done : List Line) : List Line :=
  match sofar, touched, done with
  | [], false, done => done
  | [], true, [] => []
  | [], true, line :: done => { line with touched := true } :: done
  | sofar, touched, done => ⟨touched, sofar.reverse⟩ :: done

/-- Splits items into lines; the lines done and the characters of the current one are kept with
the last one first. -/
def linesFrom (touched : Bool) (sofar : List Char) (done : List Line) : List Item → List Line
  | [] => (closeLines touched sofar done).reverse
  | .cut :: rest => linesFrom true sofar done rest
  | .char c :: rest =>
    if c == '\n' then linesFrom false [] (⟨touched, (c :: sofar).reverse⟩ :: done) rest
    else linesFrom touched (c :: sofar) done rest

/-- A line's content and the line ending after it. -/
def splitEnding (text : List Char) : List Char × List Char :=
  match text.reverse with
  | '\n' :: '\r' :: content => (content.reverse, ['\r', '\n'])
  | '\n' :: content => (content.reverse, ['\n'])
  | _ => (text, [])

def Line.render (line : Line) : List Char :=
  if line.touched then
    let (content, ending) := splitEnding line.text
    let content := Text.trimEnd content
    if content.isEmpty then [] else content ++ ending
  else line.text

/-- A text without the given comments. -/
def without (comments : List Comment) (text : List Char) : List Char :=
  if comments.isEmpty then text
  else (linesFrom false [] [] (cutFrom none 0 text comments)).flatMap Line.render

/-- Judges slashes by what comes before them, in the dialects that have regular expressions. -/
def reader (d : Dialect) : SlashReader SlashReader.Context :=
  let reader := SlashReader.byContext
  { reader with
    opensRegExp := fun context t => d.hasRegExpLiterals && reader.opensRegExp context t }

/-- The tokens of a text, with the comments before each. -/
def scan (text : String) (d : Dialect) : TokenStream :=
  TokenStream.read (reader d) (Lexer.start text d 1 true)

end CommentRemoval

/-- Removes every comment from a text, read by the tokens alone. -/
def removeCommentsByTokens (text : String) (d : Dialect) : Except Diagnostic String :=
  let stream := CommentRemoval.scan text d
  match stream.failure with
  | some d => .error d
  | none => .ok (String.ofList (CommentRemoval.without stream.comments text.toList))

end ScriptPress
