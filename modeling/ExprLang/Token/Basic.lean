import ExprLang.Source.Position
import ExprLang.Token.Kind

/-!
# Tokens

A token is a lexeme of a source: its kind, its text, and the span it covers.
The text of a string token is the contents of the string; the text of any other
token is the source under its span.
-/

namespace ExprLang

/-- A lexical unit of a source. -/
structure Token where
  kind : TokenKind
  text : String
  span : Span
deriving DecidableEq, Repr, Inhabited

namespace Token

/-- A token that comes from no source, for trees that are built by hand. -/
def synthetic (kind : TokenKind) (text : String) : Token :=
  ⟨kind, text, .null⟩

/-- The token that ends a stream, at a given span. -/
def endOfInput (span : Span) : Token :=
  ⟨.eof, "EOF", span⟩

/-- Where a token starts. -/
def start (t : Token) : Position :=
  t.span.start

/-- Whether a token is of one of the given kinds. -/
def isOneOf (t : Token) (kinds : List TokenKind) : Bool :=
  kinds.contains t.kind

/-- The name of the kind, with the text in parentheses where the kind does not
determine it. -/
def display (t : Token) : String :=
  let shown := if t.isOneOf [.string, .identifier, .number] then t.text else ""
  t.kind.name ++ " (" ++ shown ++ ")"

end Token

end ExprLang
