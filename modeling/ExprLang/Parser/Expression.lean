import ExprLang.Decimal.Reading
import ExprLang.Expr.Basic
import ExprLang.Grammar.Basic
import ExprLang.Parser.Basic

/-!
# Parsing by binding power

An expression starts by the rule for its first token, and then goes on by the
rules for the tokens that follow, as long as these bind more tightly than what
stands in front of the expression.  A rule that needs an operand parses it as an
expression of its own, behind at least one token more; the depth of nesting and
the number of turns of a loop are therefore bounded by the number of tokens, and
the bound is passed down.

The rules take the parser of their operands as an argument.
-/

namespace ExprLang

open ParseM

/-! ## Expressions of one token -/

/-- The value of a token that is a constant. -/
def Token.constant? (t : Token) : Option (Except Diagnostic Value) :=
  match t.kind with
  | .number =>
      some <|
        match Decimal.read? t.text with
        | some value => .ok (.number value)
        | none => .error ⟨.invalidNumber t.text, t.start⟩
  | .string => some (.ok (.string t.text))
  | .kwTrue => some (.ok (.boolean true))
  | .kwFalse => some (.ok (.boolean false))
  | .kwNil => some (.ok .nil)
  | _ => none

/-- No expression starts with a token. -/
def Token.expectedExpression (t : Token) : Diagnostic :=
  ⟨.expectedExpression t.text, t.start⟩

/-- The expression that a token is by itself: a constant or a variable. -/
def Token.leaf (t : Token) : Except Diagnostic Expr :=
  match t.constant? with
  | some value? => value?.map (Expr.literal · t.span)
  | none =>
      if t.kind = .identifier then .ok (.var t) else .error t.expectedExpression

/-! ## Assignment -/

/-- The assignment of a value to an expression, if it can be assigned to. -/
def Expr.assigned? (value : Expr) : Expr → Option Expr
  | .var name => some (.assign name value)
  | .get object name => some (.set object name value)
  | _ => none

/-! ## Rules -/

/-- How an expression starts, by a parser of its operands. -/
def PrefixRule.run (operand : BindingPower → ParseM Expr) : PrefixRule → ParseM Expr
  | .primary => do
      ofExcept (← next).leaf
  | .this => do
      let keyword ← expect .kwThis
      return .this keyword
  | .super => do
      let keyword ← expect .kwSuper
      let _ ← expectDetailed .dot "expected `.` after `super`"
      let method ← expectDetailed .identifier "expected superclass method name"
      return .super keyword method
  | .operator => do
      let operator ← next
      let right ← operand .unary
      return .unary operator right
  | .group => do
      let _ ← next
      let inner ← operand .default
      let _ ← expectDetailed .closeParen "expected `)` after expression"
      return .group inner

/-- Expressions between commas, at least one and at most a number of turns. -/
def parseArguments (operand : BindingPower → ParseM Expr) : Nat → ParseM (List Expr)
  | 0 => throw .exhausted
  | turns + 1 => do
      let first ← operand .default
      if (← peek).kind = .comma then
        let _ ← next
        let others ← parseArguments operand turns
        return first :: others
      else
        return [first]

/-- How an expression goes on behind a left operand, by a parser of its other
operands.  The power is that of the token it goes on with. -/
def InfixRule.run (operand : BindingPower → ParseM Expr) (turns : Nat)
    (left : Expr) (power : BindingPower) : InfixRule → ParseM Expr
  | .binary => do
      let operator ← next
      let right ← operand power
      return .binary left operator right
  | .logical => do
      let operator ← next
      let right ← operand power
      return .logical left operator right
  | .assignment => do
      let equals ← next
      let value ← operand .default
      match Expr.assigned? value left with
      | some e => return e
      | none => fail ⟨.invalidAssignmentTarget, equals.start⟩
  | .call => do
      let _ ← next
      let arguments ←
        if (← peek).kind = .closeParen then pure [] else parseArguments operand turns
      let paren ← expectDetailed .closeParen "expected `)` after arguments"
      return .call left paren arguments
  | .get => do
      let _ ← next
      let name ← expectDetailed .identifier "expected property name after `.`"
      return .get left name

/-! ## Expressions -/

/-- Goes on with an expression while tokens follow that bind more tightly than a
power. -/
def extend (g : Grammar) (operand : BindingPower → ParseM Expr) (turns : Nat)
    (power : BindingPower) : Nat → Expr → ParseM Expr
  | 0, _ => throw .exhausted
  | count + 1, left => do
      let t ← peek
      if power < g.power t.kind then
        match g.infixRule? t.kind with
        | none => fail ⟨.unexpectedToken t.text, t.start⟩
        | some rule => do
            let longer ← rule.run operand turns left (g.power t.kind)
            extend g operand turns power count longer
      else
        return left

/-- An expression that holds its operands more tightly than a power, nested at
most to a depth. -/
def parseExpr (g : Grammar) : Nat → BindingPower → ParseM Expr
  | 0, _ => throw .exhausted
  | depth + 1, power => do
      let t ← peek
      match g.prefixRule? t.kind with
      | none => fail t.expectedExpression
      | some rule => do
          let left ← rule.run (parseExpr g depth)
          extend g (parseExpr g depth) depth power depth left

end ExprLang
