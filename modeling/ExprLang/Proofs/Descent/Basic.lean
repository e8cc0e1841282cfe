import ExprLang.Parser.Expression
import ExprLang.Proofs.Reading.Basic

/-!
# Recursive descent

The expression language as a grammar of nested levels, and the parser that has
one procedure for each of them.  No binding power occurs here: a level is
tighter than another one because its procedure reads the operands of the other.

- An assignment is an operation of the loosest level, or one before `=` and an
  assignment.
- An operation of a level is a row of operands of the next tighter level with
  operators between them, grouped to the left.
- A unary expression is an operator in front of a unary expression, or a call.
- A call is a primary expression with argument lists and property names behind
  it.
- A primary expression is a constant, a variable, `this`, a method of `super`, or
  an assignment in parentheses.

Main results:

- Theorem `Level.induct`: what passes from every level to the next looser one
  holds of all of them.
-/

namespace ExprLang.Descent

open ReadM

/-! ## Levels of binary operators -/

/-- The levels of operators between two operands, loosest first. -/
inductive Level where
  | or
  | and
  | equality
  | relational
  | additive
  | multiplicative
deriving DecidableEq, Repr

namespace Level

/-- The level of the operands, unless these are unary. -/
def tighter? : Level → Option Level
  | or => some and
  | and => some equality
  | equality => some relational
  | relational => some additive
  | additive => some multiplicative
  | multiplicative => none

/-- The operators of a level. -/
def operators : Level → List TokenKind
  | or => [.kwOr]
  | and => [.kwAnd]
  | equality => [.equals, .notEquals]
  | relational => [.less, .lessEquals, .greater, .greaterEquals]
  | additive => [.plus, .dash]
  | multiplicative => [.star, .slash]

/-- The expression that an operator of a level makes of its operands. -/
def node : Level → Expr → Token → Expr → Expr
  | or | and => .logical
  | equality | relational | additive | multiplicative => .binary

/-- What holds of the tightest level, and passes from every level to the next
looser one, holds of all levels. -/
theorem induct {motive : Level → Prop}
    (tightest : ∀ level, level.tighter? = none → motive level)
    (looser : ∀ level level', level.tighter? = some level' → motive level' → motive level)
    (level : Level) : motive level := by
  have hmultiplicative := tightest multiplicative rfl
  have hadditive := looser additive _ rfl hmultiplicative
  have hrelational := looser relational _ rfl hadditive
  have hequality := looser equality _ rfl hrelational
  have hand := looser and _ rfl hequality
  have hor := looser or _ rfl hand
  cases level <;> assumption

end Level

/-! ## Procedures -/

/-- The procedures of the parser. -/
inductive Procedure where
  /-- An assignment to what an operation turns out to be, or just that operation. -/
  | assignment
  /-- Operands of a level and the operators between them. -/
  | operation (level : Level)
  /-- The operators of a level behind a left operand, each with its right operand. -/
  | operations (level : Level) (left : Expr)
  | operand (level : Level)
  /-- Operators in front of a call. -/
  | unary
  /-- A primary expression and what is behind it. -/
  | call
  /-- The argument lists and property names behind an expression. -/
  | suffixes (left : Expr)
  /-- An expression that starts with none of the operators. -/
  | primary
  /-- Assignments between commas, at least one. -/
  | arguments

namespace Procedure

/-- What a procedure results in. -/
abbrev Result : Procedure → Type
  | arguments => List Expr
  | _ => Expr

/-- What a procedure reads.  The target of an assignment is checked behind the
value. -/
def run : (p : Procedure) → ReadM p.Result
  | assignment => do
      let target ← operation .or |>.run
      if (← peek).kind = .assignment then
        let equals ← next
        let value ← assignment |>.run
        match target with
        | .var name => return Expr.assign name value
        | .get object name => return Expr.set object name value
        | _ => fail ⟨.invalidAssignmentTarget, equals.start⟩
      else
        return target
  | operation level => do
      let left ← operand level |>.run
      operations level left |>.run
  | operations level left => do
      if (← peek).kind ∈ level.operators then
        let operator ← next
        let right ← operand level |>.run
        operations level (level.node left operator right) |>.run
      else
        return left
  | operand level =>
      match level.tighter? with
      | some level' => operation level' |>.run
      | none => unary |>.run
  | unary => do
      if (← peek).kind ∈ [TokenKind.dash, .not] then
        let operator ← next
        let right ← unary |>.run
        return Expr.unary operator right
      else
        call |>.run
  | call => do
      let callee ← primary |>.run
      suffixes callee |>.run
  | suffixes left => do
      match (← peek).kind with
      | .openParen => do
          let _ ← next
          let values ← if (← peek).kind = .closeParen then pure [] else arguments |>.run
          let paren ← expectDetailed .closeParen "expected `)` after arguments"
          suffixes (.call left paren values) |>.run
      | .dot => do
          let _ ← next
          let name ← expectDetailed .identifier "expected property name after `.`"
          suffixes (.get left name) |>.run
      | _ => return left
  | primary => do
      let t ← next
      match t.kind with
      | .number =>
          match Decimal.read? t.text with
          | some x => return Expr.literal (.number x) t.span
          | none => fail ⟨.invalidNumber t.text, t.start⟩
      | .string => return Expr.literal (.string t.text) t.span
      | .kwTrue => return Expr.literal (.boolean true) t.span
      | .kwFalse => return Expr.literal (.boolean false) t.span
      | .kwNil => return Expr.literal .nil t.span
      | .identifier => return Expr.var t
      | .kwThis => return Expr.this t
      | .kwSuper => do
          let _ ← expectDetailed .dot "expected `.` after `super`"
          let method ← expectDetailed .identifier "expected superclass method name"
          return Expr.super t method
      | .openParen => do
          let inner ← assignment |>.run
          let _ ← expectDetailed .closeParen "expected `)` after expression"
          return Expr.group inner
      | _ => fail ⟨.expectedExpression t.text, t.start⟩
  | arguments => do
      let first ← assignment |>.run
      if (← peek).kind = .comma then
        let _ ← next
        let others ← arguments |>.run
        return List.cons first others
      else
        return [first]
partial_fixpoint

end Procedure

/-- One expression and the end of the input. -/
def whole : ReadM Expr := do
  let e ← Procedure.assignment.run
  let _ ← expectDetailed .eof "expected end of expression"
  return e

/-- How parsing a list of tokens by recursive descent ends, if it does. -/
def parse (tokens : List Token) : Option (Except Diagnostic Expr) :=
  Option.map (Except.map Prod.fst) (whole (TokenStream.complete tokens))

end ExprLang.Descent
