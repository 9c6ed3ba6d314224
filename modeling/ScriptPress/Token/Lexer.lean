import ScriptPress.Diagnostic.Failure
import ScriptPress.Token.Gap
import ScriptPress.Token.Keyword
import ScriptPress.Token.Literal
import ScriptPress.Token.Punctuator

/-! # The lexer

Reads a text token by token. Whether a slash divides or opens a regular expression only the
grammar knows, so a slash is read as an operator and can be read again as a regular expression.
Positions count bytes of UTF-8. The lexer keeps its place after a problem, so that the line it
stopped at and the comments met on the way stay known.
-/
namespace ScriptPress

/-- A token. Names and literals carry their text; for a name with escapes it is the decoded one. -/
structure Token where
  tag : Tag
  datum : Option Tag := none
  text : Option String := none
  line : Nat
  start : Nat
  stop : Nat
  newlineBefore : Bool
  deriving Repr, DecidableEq, Inhabited

namespace Token

/-- How a diagnostic shows the token. -/
def shown (t : Token) : String := t.text.getD (t.datum.getD t.tag).spelling

/-- The two tokens that a regular expression can hide behind. -/
def isSlash (t : Token) : Bool :=
  t.tag == .div || (t.tag == .assign && t.datum == some .div)

/-- Whether a slash after this token opens a regular expression, as far as the token tells. -/
def allowsRegExp (t : Token) : Bool :=
  match t.tag with
  | .identifier | .number | .string | .regExp | .primary | .rightParen | .rightBracket
  | .increment | .decrement => false
  | _ => true

end Token

structure Comment where
  text : String
  line : Nat
  start : Nat
  stop : Nat
  block : Bool
  hasNewline : Bool
  deriving Repr, DecidableEq, Inhabited

/-- A lexer at a place of its text. `fresh` says that no token has begun on the line. -/
structure Lexer where
  dialect : Dialect
  rest : List Char
  position : Nat := 0
  line : Nat := 1
  fresh : Bool := true
  keepComments : Bool := false
  comments : List Comment := []
  deriving Repr

namespace Gap

/-- The comments of a gap that begins at a position and a line. -/
def commentsFrom (position line : Nat) : List Piece → List Comment
  | [] => []
  | .blanks text :: rest =>
    commentsFrom (position + Text.byteLength text) (line + Text.lineBreaks text) rest
  | .comment block text :: rest =>
    let stop := position + Text.byteLength text
    { text := String.ofList text, line, start := position, stop, block,
      hasNewline := text.any Text.isLineBreak }
      :: commentsFrom stop (line + Text.lineBreaks text) rest

def Piece.endsLine : Piece → Bool
  | .blanks text => text.any Text.isLineBreak
  | .comment _ _ => false

def hasNewline (gap : Gap) : Bool := gap.pieces.any (·.text.any Text.isLineBreak)

end Gap

namespace Lexer

/-- A lexer before the first character. -/
def start (text : String) (d : Dialect) (line : Nat) (keepComments : Bool) : Lexer :=
  { dialect := d, rest := text.toList, line, keepComments }

/-- Moves past characters just read. -/
def advance (lx : Lexer) (taken rest : List Char) : Lexer :=
  { lx with
    rest
    position := lx.position + Text.byteLength taken
    line := lx.line + Text.lineBreaks taken }

/-- Moves past the pieces of a gap and collects its comments. -/
def pass (lx : Lexer) (gap : Gap) : Lexer :=
  let comments :=
    if lx.keepComments then lx.comments ++ Gap.commentsFrom lx.position lx.line gap.pieces
    else lx.comments
  { lx.advance (gap.pieces.flatMap Gap.Piece.text) gap.rest with
    comments
    fresh := lx.fresh || gap.pieces.any Gap.Piece.endsLine }

/-- The comments collected since they were last taken. -/
def takeComments (lx : Lexer) : List Comment × Lexer := (lx.comments, { lx with comments := [] })

/-- What a token is made of: its tags, its text, and the characters it takes. -/
structure Lexeme where
  tag : Tag
  datum : Option Tag := none
  text : Option String := none
  taken : List Char
  rest : List Char

/-- A problem while reading a token, the lines read before it, and whether it is reported where
the token begins. -/
structure Fault where
  problem : Problem
  taken : List Char := []
  atStart : Bool := false

def literal (tag : Tag) : Scan → Except Fault Lexeme
  | .token taken rest => .ok { tag, text := some (String.ofList taken), taken, rest }
  | .problem p taken => .error { problem := p, taken, atStart := p == .unterminatedString }

def wordLexeme (d : Dialect) (text : List Char) : Except Fault Lexeme :=
  match Literal.word text with
  | none => .error { problem := .badIdentifierEscape }
  | some w =>
    let name := String.ofList w.name
    match keyword? name d with
    | none => .ok { tag := .identifier, text := some name, taken := w.taken, rest := w.rest }
    | some (tag, datum) =>
      if w.escaped then .error { problem := .reservedWord name }
      else
        let text := if tag == .reserved then some name else none
        .ok { tag, datum, text, taken := w.taken, rest := w.rest }

def isStrict (p : Punctuator) : Bool := p.datum == some .strictEq || p.datum == some .strictNe

def signLexeme (d : Dialect) (c : Char) (text : List Char) : Except Fault Lexeme :=
  match Punctuator.longest? text with
  | none => .error { problem := .illegalCharacter c }
  | some p =>
    if isStrict p && !d.hasStrictEquality then
      .error { problem := .strictEqualityUnsupported d }
    else
      .ok { tag := p.tag, datum := p.datum, taken := p.spelling,
            rest := text.drop p.spelling.length }

/-- Reads the token that begins with `c`, the head of the text. -/
def lexeme (d : Dialect) (c : Char) (text : List Char) : Except Fault Lexeme :=
  if Text.isDigit c || (c == '.' && (text.drop 1).head?.any Text.isDigit) then
    literal .number (Literal.number text)
  else if Text.isIdentStart c || c == '\\' then wordLexeme d text
  else if c == '"' || c == '\'' then literal .string (Literal.string text)
  else signLexeme d c text

/-- Reads the next token, `endOfInput` when there is none. -/
def next (lx : Lexer) : Except Diagnostic Token × Lexer :=
  let gap := Gap.scan lx.fresh lx.rest
  let here := lx.pass gap
  match gap.unfinished with
  | some text => (.error ⟨here.line, .unterminatedComment⟩, here.advance text [])
  | none =>
    match here.rest with
    | [] =>
      (.ok { tag := .endOfInput, line := here.line, start := here.position, stop := here.position,
             newlineBefore := gap.hasNewline }, here)
    | c :: _ =>
      let here := { here with fresh := false }
      match lexeme here.dialect c here.rest with
      | .error fault =>
        let there := here.advance fault.taken []
        (.error ⟨if fault.atStart then here.line else there.line, fault.problem⟩, there)
      | .ok l =>
        let there := here.advance l.taken l.rest
        (.ok { tag := l.tag, datum := l.datum, text := l.text, line := here.line,
               start := here.position, stop := there.position,
               newlineBefore := gap.hasNewline }, there)

/-- Reads a slash again as a regular expression. The lexer stands just after the slash. -/
def rescan (lx : Lexer) (slash : Token) : Except Diagnostic Token × Lexer :=
  if !lx.dialect.hasRegExpLiterals then
    (.error ⟨slash.line, .regExpUnsupported lx.dialect⟩, lx)
  else
    let opened := { lx with
      rest := if slash.tag == .assign then '=' :: lx.rest else lx.rest
      position := slash.start + 1 }
    match Literal.regExp opened.rest with
    | .problem p _ => (.error ⟨slash.line, p⟩, opened)
    | .token taken rest =>
      let there := opened.advance taken rest
      (.ok { slash with
        tag := .regExp, datum := none, text := some (String.ofList ('/' :: taken)),
        stop := there.position }, there)

end Lexer
end ScriptPress
