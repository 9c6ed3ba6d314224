import ScriptPress.Diagnostic.Problem

/-! # Literals and words

The tokens of variable shape: numbers, strings, regular expressions and words. A scan splits the
text into what the token takes and what is left, or names the problem and the characters read up
to it.
-/
namespace ScriptPress

/-- The outcome of a scan: the characters taken and the rest, or the problem met after taking
some. -/
inductive Scan where
  | token (taken rest : List Char)
  | problem (p : Problem) (taken : List Char)
  deriving Repr, DecidableEq

namespace Scan

/-- Puts a character before those taken. -/
def cons (c : Char) : Scan → Scan
  | token taken rest => token (c :: taken) rest
  | problem p taken => problem p (c :: taken)

end Scan

namespace Literal

/-! ## Numbers -/

/-- An optional point with the digits after it. -/
def fraction : List Char → List Char × List Char
  | '.' :: rest => ('.' :: rest.takeWhile Text.isDigit, rest.dropWhile Text.isDigit)
  | text => ([], text)

/-- An optional sign, and the text after it. -/
def sign : List Char → List Char × List Char
  | '+' :: rest => (['+'], rest)
  | '-' :: rest => (['-'], rest)
  | text => ([], text)

/-- An optional exponent after the characters taken so far; one without digits is a problem. -/
def exponent (taken : List Char) : List Char → Scan
  | [] => .token taken []
  | mark :: rest =>
    if mark == 'e' || mark == 'E' then
      let (signed, rest) := sign rest
      let digits := rest.takeWhile Text.isDigit
      let taken := taken ++ mark :: signed ++ digits
      if digits.isEmpty then .problem (.badNumber (String.ofList taken)) taken
      else .token taken (rest.dropWhile Text.isDigit)
    else .token taken (mark :: rest)

/-- Digits, a fraction and an exponent; the first two may be empty. -/
def decimal (text : List Char) : Scan :=
  let digits := text.takeWhile Text.isDigit
  let (point, rest) := fraction (text.dropWhile Text.isDigit)
  exponent (digits ++ point) rest

/-- The part of a number before the check of what follows it. A zero before more digits makes an
octal number, which has no fraction or exponent, unless an 8 or a 9 shows that it is none. -/
def numeral : List Char → Scan
  | '0' :: c :: rest =>
    if c == 'x' || c == 'X' then
      let digits := rest.takeWhile Text.isHexDigit
      let taken := '0' :: c :: digits
      if digits.isEmpty then .problem (.badNumber (String.ofList taken)) taken
      else .token taken (rest.dropWhile Text.isHexDigit)
    else if Text.isDigit c && !(('0' :: c :: rest).takeWhile Text.isDigit).any
        (fun d => d == '8' || d == '9') then
      .token (('0' :: c :: rest).takeWhile Text.isDigit) (('0' :: c :: rest).dropWhile Text.isDigit)
    else decimal ('0' :: c :: rest)
  | text => decimal text

/-- A character that must not follow a number. -/
def touchesNumber (c : Char) : Bool := Text.isIdentStart c || Text.isDigit c || c == '\\'

def number (text : List Char) : Scan :=
  match numeral text with
  | .token taken rest =>
    if rest.head?.any touchesNumber then .problem .identifierAfterNumber taken
    else .token taken rest
  | failed => failed

/-! ## Strings -/

/-- Where a scan of a string stands: among plain characters, with a line feed allowed just after
an escaped carriage return; after a backslash; or before some more hexadecimal digits. -/
inductive StringPlace where
  | plain (feed : Bool)
  | escape
  | hex (more : Nat)
  deriving Repr, DecidableEq

/-- The text of a string after its opening quote. -/
def stringFrom (quote : Char) : StringPlace → List Char → Scan
  | .hex _, [] => .problem .invalidEscape []
  | _, [] => .problem .unterminatedString []
  | .plain feed, c :: rest =>
    if feed && c == '\n' then (stringFrom quote (.plain false) rest).cons c
    else if Text.isLineBreak c then .problem .unterminatedString []
    else if c == '\\' then (stringFrom quote .escape rest).cons c
    else if c == quote then .token [c] rest
    else (stringFrom quote (.plain false) rest).cons c
  | .escape, c :: rest =>
    let next : StringPlace :=
      if c == 'x' then .hex 1 else if c == 'u' then .hex 3 else .plain (c == '\r')
    (stringFrom quote next rest).cons c
  | .hex more, c :: rest =>
    if Text.isHexDigit c then
      let next : StringPlace := match more with
        | 0 => .plain false
        | n + 1 => .hex n
      (stringFrom quote next rest).cons c
    else .problem .invalidEscape []

/-- A string from its opening quote to the next one like it. -/
def string : List Char → Scan
  | quote :: rest => (stringFrom quote (.plain false) rest).cons quote
  | [] => .problem .unterminatedString []

/-! ## Regular expressions -/

/-- The text of a regular expression after its opening slash, up to its closing one. Inside
brackets a slash is an ordinary character. -/
def patternFrom : (bracketed escaped : Bool) → List Char → Scan
  | _, _, [] => .problem .unterminatedRegExp []
  | bracketed, escaped, c :: rest =>
    if Text.isLineBreak c then .problem .unterminatedRegExp []
    else if escaped then (patternFrom bracketed false rest).cons c
    else if c == '\\' then (patternFrom bracketed true rest).cons c
    else if c == '[' then (patternFrom true false rest).cons c
    else if c == ']' then (patternFrom false false rest).cons c
    else if c == '/' && !bracketed then .token [c] rest
    else (patternFrom bracketed false rest).cons c

/-- A regular expression after its opening slash, with its flags. -/
def regExp (text : List Char) : Scan :=
  match patternFrom false false text with
  | .token taken rest =>
    .token (taken ++ rest.takeWhile Text.isIdentPart) (rest.dropWhile Text.isIdentPart)
  | failed => failed

/-! ## Words -/

/-- A word: its characters with escapes decoded, whether it has an escape, and the text taken. -/
structure Word where
  name : List Char
  escaped : Bool
  taken : List Char
  rest : List Char
  deriving Repr, DecidableEq

/-- The character of four hexadecimal digits. -/
def escapedChar? (a b c d : Char) : Option Char :=
  match Text.hexNumber? [a, b, c, d] with
  | some n => if n.isValidChar then some (Char.ofNat n) else none
  | none => none

/-- The longest word at the head of a text. An escape is a backslash, `u` and four digits for a
character that may stand at its place; `first` says that the place is the head of the word. -/
def wordFrom (first : Bool) : List Char → Option Word
  | '\\' :: 'u' :: a :: b :: c :: d :: rest =>
    match escapedChar? a b c d with
    | none => none
    | some ch =>
      if (if first then Text.isIdentStart ch else Text.isIdentPart ch) then
        (wordFrom false rest).map fun w =>
          { w with name := ch :: w.name, escaped := true,
                   taken := '\\' :: 'u' :: a :: b :: c :: d :: w.taken }
      else none
  | '\\' :: _ => none
  | c :: rest =>
    if Text.isIdentPart c then
      (wordFrom false rest).map fun w => { w with name := c :: w.name, taken := c :: w.taken }
    else some ⟨[], false, [], c :: rest⟩
  | [] => some ⟨[], false, [], []⟩

def word (text : List Char) : Option Word := wordFrom true text

end Literal
end ScriptPress
