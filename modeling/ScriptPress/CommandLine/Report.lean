/-! # Reports

Structured results for other programs, written with one item a line and two columns for each level.
-/
namespace ScriptPress

inductive Report where
  | null
  | flag (b : Bool)
  | number (n : Nat)
  | text (s : String)
  | list (items : List Report)
  | record (fields : List (String × Report))
  deriving Repr, Inhabited

namespace Report

def hexDigit (n : Nat) : Char := if n < 10 then Char.ofNat (48 + n) else Char.ofNat (87 + n)

/-- One character of a quoted text. Control characters are given by their code. -/
def escapeChar (c : Char) : List Char :=
  if c == '"' then ['\\', '"']
  else if c == '\\' then ['\\', '\\']
  else if c == '\n' then ['\\', 'n']
  else if c == '\r' then ['\\', 'r']
  else if c == '\t' then ['\\', 't']
  else if c == '\x08' then ['\\', 'b']
  else if c == '\x0c' then ['\\', 'f']
  else if c.toNat < 32 then
    ['\\', 'u', '0', '0', hexDigit (c.toNat / 16), hexDigit (c.toNat % 16)]
  else [c]

def quoted (s : String) : List Char := '"' :: s.toList.flatMap escapeChar ++ ['"']

def newLine (depth : Nat) : List Char := '\n' :: List.replicate (2 * depth) ' '

mutual

/-- The text of a report whose first line stands at a depth. -/
def write (depth : Nat) : Report → List Char
  | null => "null".toList
  | flag b => (if b then "true" else "false").toList
  | number n => (toString n).toList
  | text s => quoted s
  | list [] => ['[', ']']
  | list (item :: rest) =>
    '[' :: newLine (depth + 1) ++ write (depth + 1) item ++ writeItems depth rest
  | record [] => ['\x7b', '\x7d']
  | record ((name, value) :: rest) =>
    '\x7b' :: newLine (depth + 1) ++ quoted name ++ ':' :: ' ' :: write (depth + 1) value
      ++ writeFields depth rest

def writeItems (depth : Nat) : List Report → List Char
  | [] => newLine depth ++ [']']
  | item :: rest =>
    ',' :: newLine (depth + 1) ++ write (depth + 1) item ++ writeItems depth rest

def writeFields (depth : Nat) : List (String × Report) → List Char
  | [] => newLine depth ++ ['\x7d']
  | (name, value) :: rest =>
    ',' :: newLine (depth + 1) ++ quoted name ++ ':' :: ' ' :: write (depth + 1) value
      ++ writeFields depth rest

end

def pretty (r : Report) : String := String.ofList (write 0 r)

end Report
end ScriptPress
