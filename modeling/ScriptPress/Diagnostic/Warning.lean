import ScriptPress.Dialect
import ScriptPress.Locale

/-! # Warnings

What a script is better without, although it is a script.
-/
namespace ScriptPress

inductive Concern where
  | missingSemicolon | noSideEffects | assignmentAsCondition | trailingComma
  | futureKeyword (word : String) (d : Dialect)
  | varRedeclared (name : String)
  | reservedPropertyName (word : String)
  deriving Repr, DecidableEq

namespace Concern

def kindName : Concern → String
  | missingSemicolon => "MissingSemicolon"
  | noSideEffects => "NoSideEffects"
  | assignmentAsCondition => "AssignmentAsCondition"
  | trailingComma => "TrailingComma"
  | futureKeyword _ _ => "FutureKeyword"
  | varRedeclared _ => "VarRedeclared"
  | reservedPropertyName _ => "ReservedPropertyName"

def english : Concern → String
  | missingSemicolon => "missing ; after statement"
  | noSideEffects => "code has no side effects"
  | assignmentAsCondition => "test for equality (==) mistyped as assignment (=)?"
  | trailingComma => "trailing comma is not legal in ECMA-262 literals"
  | futureKeyword word d => word ++ " is a keyword in JavaScript " ++ d.name ++ " and later"
  | varRedeclared name => "redeclaration of var " ++ name
  | reservedPropertyName word => "reserved word " ++ word ++ " used as a property name"

def french : Concern → String
  | missingSemicolon => "; manquant après l'instruction"
  | noSideEffects => "le code n'a pas d'effet de bord"
  | assignmentAsCondition => "test d'égalité (==) saisi par erreur comme affectation (=) ?"
  | trailingComma => "une virgule finale n'est pas autorisée dans les littéraux ECMA-262"
  | futureKeyword word d => word ++ " est un mot clé à partir de JavaScript " ++ d.name
  | varRedeclared name => "redéclaration de la variable " ++ name
  | reservedPropertyName word => "mot réservé " ++ word ++ " utilisé comme nom de propriété"

def message (c : Concern) : Locale → String
  | .english => c.english
  | .french => c.french

end Concern

/-- A concern at a line of a named source. -/
structure Warning where
  concern : Concern
  message : String
  source : String
  line : Nat
  deriving Repr, DecidableEq

namespace Warning

def text (w : Warning) : String :=
  w.source ++ ":" ++ toString w.line ++ ": warning: " ++ w.message

end Warning
end ScriptPress
