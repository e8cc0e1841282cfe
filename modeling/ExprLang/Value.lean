import ExprLang.Decimal.Positional

/-!
# Values

The values of the expression language: numbers, strings, booleans, and `nil`.
Numbers are compared as floating-point numbers are: what is not a number
differs from itself, and the two zeros are equal.
-/

namespace ExprLang

/-- What an expression can evaluate to. -/
inductive Value where
  | number (value : Float)
  | string (value : String)
  | boolean (value : Bool)
  | nil
deriving BEq, Repr, Inhabited

namespace Value

/-- Only `nil` and `false` are falsey. -/
def isTruthy : Value → Bool
  | nil | boolean false => false
  | _ => true

/-- The name of a value's type. -/
def typeName : Value → String
  | number _ => "number"
  | string _ => "string"
  | boolean _ => "boolean"
  | nil => "nil"

/-- The text of a value.  A string is its own text, without quotes. -/
def text : Value → String
  | number value => Decimal.numberText value
  | string value => value
  | boolean true => "true"
  | boolean false => "false"
  | nil => "nil"

end Value

end ExprLang
