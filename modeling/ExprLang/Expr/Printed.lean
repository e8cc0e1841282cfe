import ExprLang.Expr.Basic

/-!
# The printed form of expressions

An expression is printed with the operator in front of its operands and a pair
of parentheses around each node that has parts.  Groups are shown, and strings
are shown without quotes.
-/

namespace ExprLang

namespace Expr

mutual

/-- The printed form of an expression. -/
def printed : Expr → String
  | .binary left operator right =>
      "(" ++ operator.text ++ " " ++ left.printed ++ " " ++ right.printed ++ ")"
  | .group inner => "(group " ++ inner.printed ++ ")"
  | .literal value _ => value.text
  | .unary operator operand => "(" ++ operator.text ++ " " ++ operand.printed ++ ")"
  | .var name => name.text
  | .assign name value => "(= " ++ name.text ++ " " ++ value.printed ++ ")"
  | .logical left operator right =>
      "(" ++ operator.text ++ " " ++ left.printed ++ " " ++ right.printed ++ ")"
  | .call callee _ arguments =>
      "(call " ++ callee.printed ++ printedAll arguments ++ ")"
  | .get object name => "(get " ++ object.printed ++ " " ++ name.text ++ ")"
  | .set object name value =>
      "(set " ++ object.printed ++ " " ++ name.text ++ " " ++ value.printed ++ ")"
  | .this _ => "this"
  | .super _ method => "(super " ++ method.text ++ ")"

/-- The printed forms of a list of expressions, each behind a space. -/
def printedAll : List Expr → String
  | [] => ""
  | e :: es => " " ++ e.printed ++ printedAll es

end

end Expr

end ExprLang
