import ScriptPress.Dialect
import ScriptPress.Token.Tag

/-! # Keywords

The words that are not identifiers. Most belong to every dialect; some came with the dialect that
gave them their meaning, and are identifiers below it. Words set aside for later use are reserved
everywhere.
-/
namespace ScriptPress

/-- A keyword: its token and the first dialect that has it. -/
structure Keyword where
  word : String
  tag : Tag
  datum : Option Tag := none
  since : Dialect := .v10

namespace Keyword

def table : List Keyword :=
  [{ word := "break", tag := .kwBreak }, { word := "continue", tag := .kwContinue },
   { word := "else", tag := .kwElse }, { word := "for", tag := .kwFor },
   { word := "function", tag := .kwFunction }, { word := "if", tag := .kwIf },
   { word := "in", tag := .kwIn }, { word := "new", tag := .kwNew },
   { word := "return", tag := .kwReturn }, { word := "var", tag := .kwVar },
   { word := "while", tag := .kwWhile }, { word := "with", tag := .kwWith },
   { word := "typeof", tag := .unary, datum := some .typeOf },
   { word := "void", tag := .unary, datum := some .void },
   { word := "delete", tag := .unary, datum := some .delete },
   { word := "this", tag := .primary, datum := some .thisValue },
   { word := "null", tag := .primary, datum := some .nullValue },
   { word := "true", tag := .primary, datum := some .trueValue },
   { word := "false", tag := .primary, datum := some .falseValue },
   { word := "switch", tag := .kwSwitch, since := .v12 },
   { word := "case", tag := .kwCase, since := .v12 },
   { word := "default", tag := .kwDefault, since := .v12 },
   { word := "do", tag := .kwDo, since := .v12 },
   { word := "try", tag := .kwTry, since := .v14 },
   { word := "catch", tag := .kwCatch, since := .v14 },
   { word := "finally", tag := .kwFinally, since := .v14 },
   { word := "throw", tag := .kwThrow, since := .v14 },
   { word := "instanceof", tag := .kwInstanceOf, since := .v14 }]

/-- The words set aside for future use in every dialect. -/
def reservedWords : List String :=
  ["abstract", "boolean", "byte", "char", "class", "const", "debugger", "double", "enum",
   "export", "extends", "final", "float", "goto", "implements", "import", "int", "interface",
   "long", "native", "package", "private", "protected", "public", "short", "static", "super",
   "synchronized", "throws", "transient", "volatile"]

end Keyword

/-- The tag and datum of a word that is a keyword of the dialect. -/
def keyword? (word : String) (d : Dialect) : Option (Tag × Option Tag) :=
  match Keyword.table.find? (fun k => k.word == word && d.atLeast k.since) with
  | some k => some (k.tag, k.datum)
  | none => if Keyword.reservedWords.contains word then some (.reserved, none) else none

/-- The dialect that turns an identifier into a keyword. -/
def laterKeyword? (word : String) (d : Dialect) : Option Dialect :=
  if (keyword? word d).isSome then none
  else [Dialect.v12, Dialect.v14].find? fun later => (keyword? word later).isSome

end ScriptPress
