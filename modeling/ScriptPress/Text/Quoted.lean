import ScriptPress.Text.CharClass

/-! # Quoted text

Diagnostics show a character between single quotes and a value between double quotes. The quote
in use, the backslash and the usual control characters are escaped by a backslash; characters that
would not show, or would join the quote before them, are given by their code point.
-/
namespace ScriptPress.Text

/-- The escape of a character by its code point, in lower case hexadecimal. -/
def codeEscape (c : Char) : List Char :=
  ['\\', 'u', '\x7b'] ++ Nat.toDigits 16 c.toNat ++ ['\x7d']

/-- One character of a text quoted by `quote`. -/
def escapeChar (quote c : Char) : List Char :=
  if c == '\x00' then ['\\', '0']
  else if c == '\t' then ['\\', 't']
  else if c == '\r' then ['\\', 'r']
  else if c == '\n' then ['\\', 'n']
  else if c == '\\' || c == quote then ['\\', c]
  else if isCombining c || isUnprintable c then codeEscape c
  else [c]

def quotedChar (c : Char) : String := String.ofList ('\'' :: escapeChar '\'' c ++ ['\''])

def quotedText (text : String) : String :=
  String.ofList ('"' :: text.toList.flatMap (escapeChar '"') ++ ['"'])

end ScriptPress.Text
