import ScriptPress.Token.Tag

/-! # Punctuators

The operators and other signs of a script. At each place the longest one counts.
-/
namespace ScriptPress

structure Punctuator where
  spelling : List Char
  tag : Tag
  datum : Option Tag := none
  deriving Repr, DecidableEq

namespace Punctuator

/-- Every punctuator, the longer ones first. -/
def table : List Punctuator :=
  [⟨">>>=".toList, .assign, some .shiftRightZero⟩,
   ⟨"===".toList, .equality, some .strictEq⟩, ⟨"!==".toList, .equality, some .strictNe⟩,
   ⟨"<<=".toList, .assign, some .shiftLeft⟩, ⟨">>=".toList, .assign, some .shiftRight⟩,
   ⟨">>>".toList, .shift, some .shiftRightZero⟩,
   ⟨"||".toList, .or, none⟩, ⟨"&&".toList, .and, none⟩,
   ⟨"==".toList, .equality, some .eq⟩, ⟨"!=".toList, .equality, some .ne⟩,
   ⟨"<<".toList, .shift, some .shiftLeft⟩, ⟨">>".toList, .shift, some .shiftRight⟩,
   ⟨"<=".toList, .relation, some .le⟩, ⟨">=".toList, .relation, some .ge⟩,
   ⟨"++".toList, .increment, none⟩, ⟨"--".toList, .decrement, none⟩,
   ⟨"|=".toList, .assign, some .bitOr⟩, ⟨"^=".toList, .assign, some .bitXor⟩,
   ⟨"&=".toList, .assign, some .bitAnd⟩, ⟨"*=".toList, .assign, some .mul⟩,
   ⟨"/=".toList, .assign, some .div⟩, ⟨"%=".toList, .assign, some .mod⟩,
   ⟨"+=".toList, .assign, some .add⟩, ⟨"-=".toList, .assign, some .sub⟩,
   ⟨";".toList, .semicolon, none⟩, ⟨"[".toList, .leftBracket, none⟩,
   ⟨"]".toList, .rightBracket, none⟩, ⟨"\x7b".toList, .leftBrace, none⟩,
   ⟨"\x7d".toList, .rightBrace, none⟩, ⟨"(".toList, .leftParen, none⟩,
   ⟨")".toList, .rightParen, none⟩, ⟨",".toList, .comma, none⟩, ⟨".".toList, .dot, none⟩,
   ⟨"?".toList, .question, none⟩, ⟨":".toList, .colon, none⟩, ⟨"=".toList, .assign, none⟩,
   ⟨"|".toList, .bitOr, none⟩, ⟨"^".toList, .bitXor, none⟩, ⟨"&".toList, .bitAnd, none⟩,
   ⟨"<".toList, .relation, some .lt⟩, ⟨">".toList, .relation, some .gt⟩,
   ⟨"+".toList, .add, none⟩, ⟨"-".toList, .sub, none⟩, ⟨"*".toList, .mul, none⟩,
   ⟨"/".toList, .div, none⟩, ⟨"%".toList, .mod, none⟩,
   ⟨"!".toList, .unary, some .not⟩, ⟨"~".toList, .unary, some .bitNot⟩]

/-- The longest punctuator at the head of a text. -/
def longest? (text : List Char) : Option Punctuator :=
  table.find? (·.spelling.isPrefixOf text)

end Punctuator
end ScriptPress
