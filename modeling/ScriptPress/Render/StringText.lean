import ScriptPress.Text.CharClass

/-! # String text

The text of a string literal without its line continuations: a backslash and the line break after
it stand for nothing.
-/
namespace ScriptPress.Render

/-- Where a scan of a string stands: among plain characters, with a line feed dropped just after
an escaped carriage return, or after a backslash. -/
inductive ContinuationPlace where
  | plain (feed : Bool)
  | escape
  deriving Repr, DecidableEq

def withoutContinuationsFrom : ContinuationPlace → List Char → List Char
  | .plain _, [] => []
  | .escape, [] => ['\\']
  | .plain feed, c :: rest =>
    if feed && c == '\n' then withoutContinuationsFrom (.plain false) rest
    else if c == '\\' then withoutContinuationsFrom .escape rest
    else c :: withoutContinuationsFrom (.plain false) rest
  | .escape, c :: rest =>
    if Text.isLineBreak c then withoutContinuationsFrom (.plain (c == '\r')) rest
    else '\\' :: c :: withoutContinuationsFrom (.plain false) rest

/-- A text without its line continuations. -/
def withoutContinuations (text : String) : String :=
  String.ofList (withoutContinuationsFrom (.plain false) text.toList)

end ScriptPress.Render
