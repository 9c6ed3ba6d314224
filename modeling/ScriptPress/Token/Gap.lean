import ScriptPress.Text.CharClass

/-! # Gaps

What stands between two tokens: blanks, line breaks and comments. A comment runs from `//` or
`<!--` to the end of its line, from `-->` likewise where nothing but blanks and comments comes
before it on its line, or from `/*` to the first `*/`.
-/
namespace ScriptPress

namespace Gap

/-- A part of a gap: a run of blanks and line breaks, or a comment. -/
inductive Piece where
  | blanks (text : List Char)
  | comment (block : Bool) (text : List Char)
  deriving Repr, DecidableEq

def Piece.text : Piece → List Char
  | .blanks text => text
  | .comment _ text => text

/-- Where a scan of a gap stands. Comments keep the characters so far, the last one first;
`fresh` says that no token has begun on the line. -/
inductive Place where
  | between (fresh : Bool)
  | inLine (sofar : List Char)
  | inBlock (fresh : Bool) (sofar : List Char)
  deriving Repr, DecidableEq

def opensLineComment (fresh : Bool) (text : List Char) : Bool :=
  ['/', '/'].isPrefixOf text || ['<', '!', '-', '-'].isPrefixOf text
    || (fresh && ['-', '-', '>'].isPrefixOf text)

def opensBlockComment (text : List Char) : Bool := ['/', '*'].isPrefixOf text

/-- A block comment of these characters, the last one first, ends with the slash that follows. -/
def closesBlock : List Char → Bool
  | '*' :: _ :: _ :: _ => true
  | _ => false

end Gap

/-- The pieces of a gap, the text of a comment that does not end, and the text after the gap. -/
structure Gap where
  pieces : List Gap.Piece
  unfinished : Option (List Char)
  rest : List Char
  deriving Repr, DecidableEq

namespace Gap

def cons (piece : Piece) (gap : Gap) : Gap := { gap with pieces := piece :: gap.pieces }

/-- Puts a blank before a gap, into its first run of blanks if it begins with one. -/
def consBlank (c : Char) (gap : Gap) : Gap :=
  match gap.pieces with
  | .blanks text :: pieces => { gap with pieces := .blanks (c :: text) :: pieces }
  | pieces => { gap with pieces := .blanks [c] :: pieces }

/-- Reads a gap from its place on, character by character. -/
def scanFrom : Place → List Char → Gap
  | .between _, [] => ⟨[], none, []⟩
  | .inLine sofar, [] => ⟨[.comment false sofar.reverse], none, []⟩
  | .inBlock _ sofar, [] => ⟨[], some sofar.reverse, []⟩
  | .between fresh, c :: rest =>
    if Text.isBlank c || Text.isLineBreak c then
      consBlank c (scanFrom (.between (fresh || Text.isLineBreak c)) rest)
    else if opensLineComment fresh (c :: rest) then scanFrom (.inLine [c]) rest
    else if opensBlockComment (c :: rest) then scanFrom (.inBlock fresh [c]) rest
    else ⟨[], none, c :: rest⟩
  | .inLine sofar, c :: rest =>
    if Text.isLineBreak c then
      cons (.comment false sofar.reverse) (consBlank c (scanFrom (.between true) rest))
    else scanFrom (.inLine (c :: sofar)) rest
  | .inBlock fresh sofar, c :: rest =>
    if c == '/' && closesBlock sofar then
      cons (.comment true (c :: sofar).reverse) (scanFrom (.between fresh) rest)
    else scanFrom (.inBlock fresh (c :: sofar)) rest

/-- The gap at the head of a text. -/
def scan (fresh : Bool) (text : List Char) : Gap := scanFrom (.between fresh) text

/-- All the characters of a gap, an unfinished comment's included. -/
def text (gap : Gap) : List Char :=
  gap.pieces.flatMap Piece.text ++ gap.unfinished.getD []

end Gap
end ScriptPress
