import ExprLang.Expr.Basic

/-!
# Spans of expressions

The span of an expression runs from the start of its first part to the end of
its last.  Parentheses around an expression do not count.
-/

namespace ExprLang

/-- The span that an expression covers. -/
def Expr.span : Expr → Span
  | .binary left _ right => left.span.to right.span
  | .group inner => inner.span
  | .literal _ span => span
  | .unary operator operand => operator.span.to operand.span
  | .var name => name.span
  | .assign name value => name.span.to value.span
  | .logical left _ right => left.span.to right.span
  | .call callee paren _ => callee.span.to paren.span
  | .get object name => object.span.to name.span
  | .set object _ value => object.span.to value.span
  | .this keyword => keyword.span
  | .super keyword method => keyword.span.to method.span

end ExprLang
