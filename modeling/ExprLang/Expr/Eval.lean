import ExprLang.Diagnostic.Basic
import ExprLang.Expr.Basic

/-!
# Evaluation of constant expressions

Literals, groups, and unary, binary and logical operators are evaluated from
left to right.  Whatever depends on a state (variables, calls, properties,
`this` and `super`) is refused at the token that its node keeps, and nothing
below such a node is looked at.

Main results:

- Theorem `Expr.eval_group`: parentheses change nothing.
- Theorem `Expr.eval_logical_of_skips`: a right operand that is skipped is not
  evaluated.
-/

namespace ExprLang

/-! ## Faults of evaluation -/

/-- The operands of an operator are not what it needs. -/
def Token.operandFault (operator : Token) (expected : String) : Diagnostic :=
  ⟨.operandType operator.text expected, operator.start⟩

/-- A token stands where only certain operators may stand. -/
def Token.notOperator (operator : Token) (message : String) : Diagnostic :=
  ⟨.unexpectedTokenDetailed operator.text message, operator.start⟩

/-- An expression depends on a state. -/
def Token.notConstant (token : Token) (what : String) : Diagnostic :=
  ⟨.notConstant what, token.start⟩

/-! ## Operators on values -/

/-- Both operands, if they are numbers. -/
def numbers (operator : Token) : Value → Value → Except Diagnostic (Float × Float)
  | .number l, .number r => .ok (l, r)
  | _, _ => .error (operator.operandFault "numbers")

/-- Applies an operation to two numbers. -/
def arithmetic (operator : Token) (operation : Float → Float → Float)
    (left right : Value) : Except Diagnostic Value :=
  (numbers operator left right).map fun (l, r) => .number (operation l r)

/-- Compares two numbers. -/
def comparison (operator : Token) (relation : Float → Float → Bool)
    (left right : Value) : Except Diagnostic Value :=
  (numbers operator left right).map fun (l, r) => .boolean (relation l r)

/-- Adds two numbers or joins two strings. -/
def addition (operator : Token) : Value → Value → Except Diagnostic Value
  | .number l, .number r => .ok (.number (l + r))
  | .string l, .string r => .ok (.string (l ++ r))
  | _, _ => .error (operator.operandFault "two numbers or two strings")

/-- The value of a binary operator applied to two values. -/
def binaryValue (operator : Token) (left right : Value) : Except Diagnostic Value :=
  match operator.kind with
  | .plus => addition operator left right
  | .dash => arithmetic operator (· - ·) left right
  | .star => arithmetic operator (· * ·) left right
  | .slash => arithmetic operator (· / ·) left right
  | .less => comparison operator (fun l r => decide (l < r)) left right
  | .lessEquals => comparison operator (fun l r => decide (l ≤ r)) left right
  | .greater => comparison operator (fun l r => decide (l > r)) left right
  | .greaterEquals => comparison operator (fun l r => decide (l ≥ r)) left right
  | .equals => .ok (.boolean (left == right))
  | .notEquals => .ok (.boolean (left != right))
  | _ => .error (operator.notOperator "not a binary operator")

/-- The value of a unary operator applied to a value. -/
def unaryValue (operator : Token) (operand : Value) : Except Diagnostic Value :=
  match operator.kind, operand with
  | .dash, .number n => .ok (.number (-n))
  | .dash, _ => .error (operator.operandFault "a number")
  | .not, value => .ok (.boolean !value.isTruthy)
  | _, _ => .error (operator.notOperator "not a unary operator")

/-- Whether a logical operator yields its left operand without a look at the
right one. -/
def skipsRight (operator : Token) (left : Value) : Except Diagnostic Bool :=
  match operator.kind with
  | .kwOr => .ok left.isTruthy
  | .kwAnd => .ok !left.isTruthy
  | _ => .error (operator.notOperator "not a logical operator")

/-! ## Evaluation -/

namespace Expr

/-- The value of a constant expression, or the first fault met. -/
def eval : Expr → Except Diagnostic Value
  | .binary left operator right => do
      let l ← left.eval
      let r ← right.eval
      binaryValue operator l r
  | .group inner => inner.eval
  | .literal value _ => .ok value
  | .unary operator operand => do
      let value ← operand.eval
      unaryValue operator value
  | .var name => .error (name.notConstant ("variable `" ++ name.text ++ "`"))
  | .assign name _ => .error (name.notConstant ("assignment to `" ++ name.text ++ "`"))
  | .logical left operator right => do
      let l ← left.eval
      if ← skipsRight operator l then
        return l
      else
        right.eval
  | .call _ paren _ => .error (paren.notConstant "call")
  | .get _ name => .error (name.notConstant ("property `" ++ name.text ++ "`"))
  | .set _ name _ =>
      .error (name.notConstant ("assignment to property `" ++ name.text ++ "`"))
  | .this keyword => .error (keyword.notConstant "`this`")
  | .super keyword _ => .error (keyword.notConstant "`super`")

/-- Parentheses do not change the value. -/
@[simp]
theorem eval_group (inner : Expr) : (group inner).eval = inner.eval :=
  rfl

/-- A right operand that is skipped is not evaluated. -/
theorem eval_logical_of_skips {left right : Expr} {operator : Token} {l : Value}
    (hleft : left.eval = .ok l) (hskips : skipsRight operator l = .ok true) :
    (logical left operator right).eval = .ok l := by
  simp [eval, hleft, hskips, bind, Except.bind, pure, Except.pure]

end Expr

end ExprLang
