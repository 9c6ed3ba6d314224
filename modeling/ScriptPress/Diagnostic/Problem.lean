import ScriptPress.Dialect
import ScriptPress.Locale
import ScriptPress.Text.Quoted
import ScriptPress.Token.Tag

/-! # Problems

Why a text is no script. A problem is a cause; its wording is a function of the locale alone.
-/
namespace ScriptPress

/-- What the grammar was looking for when it found something else. -/
inductive Expected where
  | parenAfter (keyword : Tag)
  | parenAfterCondition | parenAfterArguments | parenAfterParameters | parenInParenthetical
  | parenAfterForControl
  | braceBeforeBody (construct : String)
  | braceAfterBody (construct : String)
  | bracketInIndex | bracketAfterElements | braceAfterProperties
  | colonAfterPropertyId | colonInConditional | colonAfterCase
  | semicolonAfterForInit | semicolonAfterForCondition
  | whileAfterDo | variableName | functionName | formalParameter | nameAfterDot | propertyId
  | catchVariable | operand
  deriving Repr, DecidableEq

inductive Problem where
  | unterminatedString | unterminatedComment | unterminatedRegExp | invalidEscape
  | illegalCharacter (c : Char)
  | badNumber (text : String)
  | identifierAfterNumber | badIdentifierEscape
  | reservedWord (word : String)
  | regExpUnsupported (d : Dialect)
  | strictEqualityUnsupported (d : Dialect)
  | unexpected (what : String)
  | missingSemicolon
  | missing (what : Expected)
  | badAssignTarget | badStepOperand | badForInTarget | badReturn | badBreak | badContinue
  | undefinedLabel (name : String)
  | duplicateLabel (name : String)
  | continueToNonLoop (name : String)
  | duplicateDefault | missingCatchOrFinally | throwNewline
  | catchGuardUnsupported (d : Dialect)
  deriving Repr, DecidableEq

namespace Expected

def english : Expected → String
  | parenAfter keyword => "missing ( after " ++ keyword.spelling
  | parenAfterCondition => "missing ) after condition"
  | parenAfterArguments => "missing ) after argument list"
  | parenAfterParameters => "missing ) after formal parameters"
  | parenInParenthetical => "missing ) in parenthetical"
  | parenAfterForControl => "missing ) after for-loop control"
  | braceBeforeBody construct => "missing \x7b before " ++ construct ++ " body"
  | braceAfterBody construct => "missing \x7d after " ++ construct ++ " body"
  | bracketInIndex => "missing ] in index expression"
  | bracketAfterElements => "missing ] after element list"
  | braceAfterProperties => "missing \x7d after property list"
  | colonAfterPropertyId => "missing : after property id"
  | colonInConditional => "missing : in conditional expression"
  | colonAfterCase => "missing : after case expression"
  | semicolonAfterForInit => "missing ; after for-loop initializer"
  | semicolonAfterForCondition => "missing ; after for-loop condition"
  | whileAfterDo => "missing while after do-loop body"
  | variableName => "missing variable name"
  | functionName => "missing function name"
  | formalParameter => "missing formal parameter"
  | nameAfterDot => "missing name after . operator"
  | propertyId => "invalid property id"
  | catchVariable => "missing identifier in catch"
  | operand => "syntax error: missing operand"

def french : Expected → String
  | parenAfter keyword => "( manquante après " ++ keyword.spelling
  | parenAfterCondition => ") manquante après la condition"
  | parenAfterArguments => ") manquante après la liste d'arguments"
  | parenAfterParameters => ") manquante après les paramètres formels"
  | parenInParenthetical => ") manquante dans l'expression entre parenthèses"
  | parenAfterForControl => ") manquante après le contrôle de la boucle for"
  | braceBeforeBody construct => "\x7b manquante avant le corps de " ++ construct
  | braceAfterBody construct => "\x7d manquante après le corps de " ++ construct
  | bracketInIndex => "] manquant dans l'expression d'index"
  | bracketAfterElements => "] manquant après la liste d'éléments"
  | braceAfterProperties => "\x7d manquante après la liste de propriétés"
  | colonAfterPropertyId => ": manquant après l'identifiant de propriété"
  | colonInConditional => ": manquant dans l'expression conditionnelle"
  | colonAfterCase => ": manquant après l'expression case"
  | semicolonAfterForInit => "; manquant après l'initialisation de la boucle for"
  | semicolonAfterForCondition => "; manquant après la condition de la boucle for"
  | whileAfterDo => "while manquant après le corps de la boucle do"
  | variableName => "nom de variable manquant"
  | functionName => "nom de fonction manquant"
  | formalParameter => "paramètre formel manquant"
  | nameAfterDot => "nom manquant après l'opérateur ."
  | propertyId => "identifiant de propriété invalide"
  | catchVariable => "identificateur manquant dans catch"
  | operand => "erreur de syntaxe : opérande manquant"

end Expected

namespace Problem

def english : Problem → String
  | unterminatedString => "unterminated string literal"
  | unterminatedComment => "unterminated comment"
  | unterminatedRegExp => "unterminated regular expression literal"
  | invalidEscape => "invalid escape sequence"
  | illegalCharacter c => "illegal character " ++ Text.quotedChar c
  | badNumber text => "malformed number literal " ++ text
  | identifierAfterNumber => "identifier starts immediately after numeric literal"
  | badIdentifierEscape => "invalid Unicode escape in identifier"
  | reservedWord word => "identifier is a reserved word: " ++ word
  | regExpUnsupported d =>
    "regular expression literals are not supported in JavaScript " ++ d.name
  | strictEqualityUnsupported d =>
    "strict equality operators are not supported in JavaScript " ++ d.name
  | unexpected what => "syntax error: unexpected " ++ what
  | missingSemicolon => "missing ; before statement"
  | missing what => what.english
  | badAssignTarget => "invalid assignment left-hand side"
  | badStepOperand => "invalid increment/decrement operand"
  | badForInTarget => "invalid for/in left-hand side"
  | badReturn => "invalid return"
  | badBreak => "unlabelled break must be inside loop or switch"
  | badContinue => "continue must be inside loop"
  | undefinedLabel name => "undefined label " ++ name
  | duplicateLabel name => "duplicate label " ++ name
  | continueToNonLoop name => "continue target " ++ name ++ " is not a loop"
  | duplicateDefault => "more than one switch default"
  | missingCatchOrFinally => "missing catch or finally after try"
  | throwNewline => "line terminator is not allowed after throw"
  | catchGuardUnsupported d =>
    "conditional catch clauses are not supported in JavaScript " ++ d.name

def french : Problem → String
  | unterminatedString => "chaîne littérale non terminée"
  | unterminatedComment => "commentaire non terminé"
  | unterminatedRegExp => "expression régulière littérale non terminée"
  | invalidEscape => "séquence d'échappement invalide"
  | illegalCharacter c => "caractère illégal " ++ Text.quotedChar c
  | badNumber text => "nombre littéral mal formé " ++ text
  | identifierAfterNumber => "un identificateur suit immédiatement un nombre littéral"
  | badIdentifierEscape => "échappement Unicode invalide dans un identificateur"
  | reservedWord word => "l'identificateur est un mot réservé : " ++ word
  | regExpUnsupported d =>
    "les expressions régulières littérales ne sont pas prises en charge en JavaScript " ++ d.name
  | strictEqualityUnsupported d =>
    "les opérateurs d'égalité stricte ne sont pas pris en charge en JavaScript " ++ d.name
  | unexpected what => "erreur de syntaxe : " ++ what ++ " inattendu"
  | missingSemicolon => "; manquant avant l'instruction"
  | missing what => what.french
  | badAssignTarget => "partie gauche de l'affectation invalide"
  | badStepOperand => "opérande d'incrémentation/décrémentation invalide"
  | badForInTarget => "partie gauche de for/in invalide"
  | badReturn => "return invalide"
  | badBreak => "un break sans étiquette doit se trouver dans une boucle ou un switch"
  | badContinue => "continue doit se trouver dans une boucle"
  | undefinedLabel name => "étiquette " ++ name ++ " non définie"
  | duplicateLabel name => "étiquette " ++ name ++ " en double"
  | continueToNonLoop name => "la cible de continue " ++ name ++ " n'est pas une boucle"
  | duplicateDefault => "plus d'un default dans le switch"
  | missingCatchOrFinally => "catch ou finally manquant après try"
  | throwNewline => "fin de ligne interdite après throw"
  | catchGuardUnsupported d =>
    "les clauses catch conditionnelles ne sont pas prises en charge en JavaScript " ++ d.name

def message (p : Problem) : Locale → String
  | .english => p.english
  | .french => p.french

end Problem
end ScriptPress
