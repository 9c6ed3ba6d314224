import ScriptPress.Text.Alphabetic
import ScriptPress.Text.Numeric
import ScriptPress.Text.Combining
import ScriptPress.Text.Unprintable

/-! # Character classes

The classes a script is written in: line breaks, the blanks between tokens, the characters of
identifiers, and the two classes that decide how a diagnostic quotes a character.
-/
namespace ScriptPress.Text

def isAlphabetic (c : Char) : Bool := inRanges c.toNat alphabetic

def isNumeric (c : Char) : Bool := inRanges c.toNat numeric

def isCombining (c : Char) : Bool := inRanges c.toNat combining

def isUnprintable (c : Char) : Bool := inRanges c.toNat unprintable

/-- The characters with the Unicode property White_Space. -/
def whiteSpace : List CharRange :=
  [(0x9, 0xd), (0x20, 0x20), (0x85, 0x85), (0xa0, 0xa0), (0x1680, 0x1680), (0x2000, 0x200a),
   (0x2028, 0x2029), (0x202f, 0x202f), (0x205f, 0x205f), (0x3000, 0x3000)]

def isWhiteSpace (c : Char) : Bool := inRanges c.toNat whiteSpace

/-- A line of script ends at LF, CR, LINE SEPARATOR or PARAGRAPH SEPARATOR. -/
def isLineBreak (c : Char) : Bool :=
  c == '\n' || c == '\r' || c == '\u2028' || c == '\u2029'

/-- Blanks separate tokens without ending a line; the byte order mark counts as one. -/
def isBlank (c : Char) : Bool :=
  c == '\uFEFF' || (isWhiteSpace c && !isLineBreak c)

def isIdentStart (c : Char) : Bool := c == '$' || c == '_' || isAlphabetic c

def isIdentPart (c : Char) : Bool := isIdentStart c || isNumeric c

/-- Decimal digits are the ten ASCII ones. -/
def isDigit (c : Char) : Bool := '0' ≤ c && c ≤ '9'

/-- The value of an ASCII hexadecimal digit. -/
def hexValue? (c : Char) : Option Nat :=
  if isDigit c then some (c.toNat - '0'.toNat)
  else if 'a' ≤ c && c ≤ 'f' then some (c.toNat - 'a'.toNat + 10)
  else if 'A' ≤ c && c ≤ 'F' then some (c.toNat - 'A'.toNat + 10)
  else none

def isHexDigit (c : Char) : Bool := (hexValue? c).isSome

/-- The number written by a run of hexadecimal digits. -/
def hexNumber? (digits : List Char) : Option Nat :=
  digits.foldlM (fun n c => (hexValue? c).map (16 * n + ·)) 0

/-- The number of lines a text ends; CR LF ends one. -/
def lineBreaks : List Char → Nat
  | [] => 0
  | [c] => if isLineBreak c then 1 else 0
  | c :: d :: rest =>
    (if isLineBreak c && !(c == '\r' && d == '\n') then 1 else 0) + lineBreaks (d :: rest)

/-- The length of a text in bytes of UTF-8. -/
def byteLength (text : List Char) : Nat := text.foldr (fun c n => c.utf8Size + n) 0

def trimStart (text : List Char) : List Char := text.dropWhile isWhiteSpace

def trimEnd (text : List Char) : List Char := (text.reverse.dropWhile isWhiteSpace).reverse

/-- A text without the white space at both ends. -/
def trim (text : List Char) : List Char := trimEnd (trimStart text)

/-- ASCII lower case; other characters stay. -/
def lower (text : List Char) : List Char := text.map Char.toLower

end ScriptPress.Text
