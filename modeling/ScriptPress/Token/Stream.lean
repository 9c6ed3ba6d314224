import ScriptPress.Token.Lexer

/-! # Token streams

All the tokens of a text, read without a grammar. Which slashes are read again as regular
expressions is left to a reader, which sees the tokens before the slash.
-/
namespace ScriptPress

/-- Decides about slashes from what it kept of the tokens so far. -/
structure SlashReader (σ : Type) where
  init : σ
  opensRegExp : σ → Token → Bool
  note : σ → Token → σ

namespace SlashReader

/-- Every slash divides, or none does. -/
def constant (regExp : Bool) : SlashReader Unit where
  init := ()
  opensRegExp _ _ := regExp
  note _ _ := ()

/-- Judges by the token just before the slash. -/
def byPrevious : SlashReader (Option Token) where
  init := none
  opensRegExp previous _ := previous.all (·.allowsRegExp)
  note _ t := some t

/-- What tells a regular expression from a division without a grammar: the previous token, for each
open parenthesis whether it belongs to the header of a statement, and whether the previous token
closed such a header. -/
structure Context where
  previous : Option Token := none
  headers : List Bool := []
  headerClosed : Bool := false

def opensHeader (t : Token) : Bool :=
  t.tag == .kwIf || t.tag == .kwWhile || t.tag == .kwFor || t.tag == .kwWith

/-- Judges by the previous token, and takes a statement to begin after a closed header. -/
def byContext : SlashReader Context where
  init := {}
  opensRegExp context _ := context.headerClosed || context.previous.all (·.allowsRegExp)
  note context t :=
    match t.tag with
    | .leftParen =>
      { previous := some t, headers := context.previous.any opensHeader :: context.headers }
    | .rightParen =>
      { previous := some t, headers := context.headers.tail,
        headerClosed := context.headers.head?.getD false }
    | _ => { previous := some t, headers := context.headers }

end SlashReader

/-- The tokens of a text, each with the comments before it, the diagnostic that ended the reading
early, and the lexer at the end. -/
structure TokenStream where
  tokens : List (Token × List Comment)
  failure : Option Diagnostic
  lexer : Lexer

namespace TokenStream

def cons (token : Token × List Comment) (stream : TokenStream) : TokenStream :=
  { stream with tokens := token :: stream.tokens }

/-- Reads the next token; a slash is read again if the reader takes it for a regular expression. -/
def readToken {σ : Type} (reader : SlashReader σ) (seen : σ) (lx : Lexer) :
    Except Diagnostic Token × Lexer :=
  match lx.next with
  | (.error d, lx) => (.error d, lx)
  | (.ok t, lx) => if t.isSlash && reader.opensRegExp seen t then lx.rescan t else (.ok t, lx)

/-- Reads on from a lexer, a number of tokens at most. -/
def readFrom {σ : Type} (reader : SlashReader σ) : Nat → σ → Lexer → TokenStream
  | 0, _, lx => ⟨[], none, lx⟩
  | fuel + 1, seen, lx =>
    match readToken reader seen lx with
    | (.error d, lx) => ⟨[], some d, lx⟩
    | (.ok t, lx) =>
      let (comments, lx) := lx.takeComments
      if t.tag == .endOfInput then ⟨[(t, comments)], none, lx⟩
      else (readFrom reader fuel (reader.note seen t) lx).cons (t, comments)

/-- Reads a text to its end. Each token takes a character, so the length of the text is enough. -/
def read {σ : Type} (reader : SlashReader σ) (lx : Lexer) : TokenStream :=
  readFrom reader (lx.rest.length + 1) reader.init lx

def comments (stream : TokenStream) : List Comment := stream.tokens.flatMap (·.2)

end TokenStream
end ScriptPress
