import ScriptPress.Text.CharClass

/-! # Locales

The languages diagnostics are written in.
-/
namespace ScriptPress

inductive Locale where
  | english | french
  deriving Repr, DecidableEq, Inhabited

namespace Locale

def tag : Locale → String
  | english => "en"
  | french => "fr"

/-- Reads the language of a tag such as `en`, `en-US` or `fr_FR`, by code or English name. -/
def ofTag? (text : String) : Option Locale :=
  let language := Text.lower (text.toList.takeWhile fun c => c != '-' && c != '_')
  match String.ofList language with
  | "en" | "english" => some english
  | "fr" | "french" => some french
  | _ => none

end Locale
end ScriptPress
