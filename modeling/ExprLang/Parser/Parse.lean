import ExprLang.Parser.Expression
import ExprLang.Scanner.Tokenize

/-!
# Parsing a list of tokens

A list of tokens is parsed as a single expression of the language, up to the end
of the input.
-/

namespace ExprLang

open ParseM

/-- One expression of the language and the end of the input. -/
def parseWhole (depth : Nat) : ParseM Expr := do
  let e ← parseExpr .standard depth .default
  let _ ← expectDetailed .eof "expected end of expression"
  return e

/-- The expression that tokens spell, or the first fault in them.  Every level
of nesting reads a token of its own, so the depth cannot exceed their number;
running out of it would count as a missing expression. -/
def parse (tokens : List Token) : Except Diagnostic Expr :=
  let stream := TokenStream.ofTokens tokens
  match parseWhole stream.tokens.size stream with
  | .ok e _ => .ok e
  | .error (.fault d) _ => .error d
  | .error .exhausted s => .error s.current.expectedExpression

/-- The expression that a source spells, or the first fault in it. -/
def parseSource (source file : String) : Except Diagnostic Expr := do
  let tokens ← tokenize source file
  parse tokens

end ExprLang
