/-! # Tags

One set of tags names tokens, the operators they carry and the nodes of the script tree. Operators
of one level share a tag and are told apart by a second tag, the datum: `+=` is an `assign` with
the datum `add`. A statement's node has the tag of the keyword that opens it.
-/
namespace ScriptPress

inductive Tag where
  | endOfInput | semicolon | leftBracket | rightBracket | leftBrace | rightBrace | leftParen
  | rightParen | comma | dot | colon | question
  | assign | or | and | bitOr | bitXor | bitAnd | equality | relation | shift | add | sub | mul
  | div | mod | unary | increment | decrement
  | identifier | number | string | regExp | primary
  | eq | ne | strictEq | strictNe | lt | le | gt | ge | shiftLeft | shiftRight | shiftRightZero
  | not | bitNot | typeOf | void | delete | negative | positive | thisValue | nullValue
  | trueValue | falseValue
  | kwBreak | kwCase | kwCatch | kwContinue | kwDefault | kwDo | kwElse | kwFinally | kwFor
  | kwFunction | kwIf | kwIn | kwInstanceOf | kwNew | kwReturn | kwSwitch | kwThrow | kwTry
  | kwVar | kwWhile | kwWith | reserved
  | script | block | exprStatement | label | empty | forIn | call | getProp | getElem | arrayLit
  | objectLit
  deriving Repr, DecidableEq, Inhabited

namespace Tag

/-- Every tag, in the order of the declaration. -/
def all : List Tag :=
  [.endOfInput, .semicolon, .leftBracket, .rightBracket, .leftBrace, .rightBrace, .leftParen,
   .rightParen, .comma, .dot, .colon, .question, .assign, .or, .and, .bitOr, .bitXor, .bitAnd,
   .equality, .relation, .shift, .add, .sub, .mul, .div, .mod, .unary, .increment, .decrement,
   .identifier, .number, .string, .regExp, .primary, .eq, .ne, .strictEq, .strictNe, .lt, .le,
   .gt, .ge, .shiftLeft, .shiftRight, .shiftRightZero, .not, .bitNot, .typeOf, .void, .delete,
   .negative, .positive, .thisValue, .nullValue, .trueValue, .falseValue, .kwBreak, .kwCase,
   .kwCatch, .kwContinue, .kwDefault, .kwDo, .kwElse, .kwFinally, .kwFor, .kwFunction, .kwIf,
   .kwIn, .kwInstanceOf, .kwNew, .kwReturn, .kwSwitch, .kwThrow, .kwTry, .kwVar, .kwWhile,
   .kwWith, .reserved, .script, .block, .exprStatement, .label, .empty, .forIn, .call, .getProp,
   .getElem, .arrayLit, .objectLit]

/-- The name of a tag in tree dumps. -/
def dumpName : Tag → String
  | endOfInput => "EOF"
  | semicolon => "SEMI"
  | leftBracket => "LB"
  | rightBracket => "RB"
  | leftBrace => "LC"
  | rightBrace => "RC"
  | leftParen => "LP"
  | rightParen => "RP"
  | comma => "COMMA"
  | dot => "DOT"
  | colon => "COLON"
  | question => "HOOK"
  | assign => "ASSIGN"
  | or => "OR"
  | and => "AND"
  | bitOr => "BITOR"
  | bitXor => "BITXOR"
  | bitAnd => "BITAND"
  | equality => "EQOP"
  | relation => "RELOP"
  | shift => "SHOP"
  | add => "ADD"
  | sub => "SUB"
  | mul => "MUL"
  | div => "DIV"
  | mod => "MOD"
  | unary => "UNARYOP"
  | increment => "INC"
  | decrement => "DEC"
  | identifier => "NAME"
  | number => "NUMBER"
  | string => "STRING"
  | regExp => "REGEXP"
  | primary => "PRIMARY"
  | eq => "EQ"
  | ne => "NE"
  | strictEq => "SHEQ"
  | strictNe => "SHNE"
  | lt => "LT"
  | le => "LE"
  | gt => "GT"
  | ge => "GE"
  | shiftLeft => "LSH"
  | shiftRight => "RSH"
  | shiftRightZero => "URSH"
  | not => "NOT"
  | bitNot => "BITNOT"
  | typeOf => "TYPEOF"
  | void => "VOID"
  | delete => "DELETE"
  | negative => "NEG"
  | positive => "POS"
  | thisValue => "THIS"
  | nullValue => "NULL"
  | trueValue => "TRUE"
  | falseValue => "FALSE"
  | kwBreak => "BREAK"
  | kwCase => "CASE"
  | kwCatch => "CATCH"
  | kwContinue => "CONTINUE"
  | kwDefault => "DEFAULT"
  | kwDo => "DO"
  | kwElse => "ELSE"
  | kwFinally => "FINALLY"
  | kwFor => "FOR"
  | kwFunction => "FUNCTION"
  | kwIf => "IF"
  | kwIn => "IN"
  | kwInstanceOf => "INSTANCEOF"
  | kwNew => "NEW"
  | kwReturn => "RETURN"
  | kwSwitch => "SWITCH"
  | kwThrow => "THROW"
  | kwTry => "TRY"
  | kwVar => "VAR"
  | kwWhile => "WHILE"
  | kwWith => "WITH"
  | reserved => "RESERVED"
  | script => "SCRIPT"
  | block => "BLOCK"
  | exprStatement => "EXPR_STATEMENT"
  | label => "LABEL"
  | empty => "EMPTY"
  | forIn => "FORIN"
  | call => "CALL"
  | getProp => "GETPROP"
  | getElem => "GETELEM"
  | arrayLit => "ARRAYLIT"
  | objectLit => "OBJECTLIT"

/-- How an operator, a punctuator or a keyword is spelled, or what a diagnostic calls the token. -/
def spelling : Tag → String
  | endOfInput => "end of input"
  | semicolon => ";"
  | leftBracket => "["
  | rightBracket => "]"
  | leftBrace => "\x7b"
  | rightBrace => "\x7d"
  | leftParen => "("
  | rightParen => ")"
  | comma => ","
  | dot => "."
  | colon => ":"
  | question => "?"
  | assign => "="
  | or => "||"
  | and => "&&"
  | bitOr => "|"
  | bitXor => "^"
  | bitAnd => "&"
  | add => "+"
  | sub => "-"
  | mul => "*"
  | div => "/"
  | mod => "%"
  | increment => "++"
  | decrement => "--"
  | identifier => "identifier"
  | number => "number"
  | string => "string"
  | regExp => "regular expression"
  | eq => "=="
  | ne => "!="
  | strictEq => "==="
  | strictNe => "!=="
  | lt => "<"
  | le => "<="
  | gt => ">"
  | ge => ">="
  | shiftLeft => "<<"
  | shiftRight => ">>"
  | shiftRightZero => ">>>"
  | not => "!"
  | bitNot => "~"
  | typeOf => "typeof"
  | void => "void"
  | delete => "delete"
  | negative => "-"
  | positive => "+"
  | thisValue => "this"
  | nullValue => "null"
  | trueValue => "true"
  | falseValue => "false"
  | kwBreak => "break"
  | kwCase => "case"
  | kwCatch => "catch"
  | kwContinue => "continue"
  | kwDefault => "default"
  | kwDo => "do"
  | kwElse => "else"
  | kwFinally => "finally"
  | kwFor => "for"
  | kwFunction => "function"
  | kwIf => "if"
  | kwIn => "in"
  | kwInstanceOf => "instanceof"
  | kwNew => "new"
  | kwReturn => "return"
  | kwSwitch => "switch"
  | kwThrow => "throw"
  | kwTry => "try"
  | kwVar => "var"
  | kwWhile => "while"
  | kwWith => "with"
  | equality | relation | shift | unary | primary | reserved =>
    "operator"
  | script | block | exprStatement | label | empty | forIn | call | getProp | getElem | arrayLit
  | objectLit =>
    ""

def isLoop (t : Tag) : Bool := t == kwWhile || t == kwDo || t == kwFor || t == forIn

def ofDumpName? (name : String) : Option Tag := all.find? (·.dumpName == name)

end Tag
end ScriptPress
