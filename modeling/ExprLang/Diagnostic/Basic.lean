import ExprLang.Source.Position
import ExprLang.Text.Quoted

/-!
# Diagnostics

A diagnostic is a fault at a position.  The causes are the constructors of
`Fault`; their wording is in two functions, the message in full and the tip
that is shown beside the name of the fault.
-/

namespace ExprLang

/-- What can go wrong with a source. -/
inductive Fault where
  /-- No lexeme starts with the character. -/
  | unrecognisedToken (token : String)
  /-- A string literal has no closing quote. -/
  | unterminatedString
  /-- A token of another kind was wanted. -/
  | unexpectedToken (token : String)
  /-- Something in particular was wanted. -/
  | unexpectedTokenDetailed (token message : String)
  /-- A number token does not denote a number. -/
  | invalidNumber (token : String)
  /-- No expression starts with the token. -/
  | expectedExpression (token : String)
  /-- What stands before `=` cannot be assigned to. -/
  | invalidAssignmentTarget
  /-- An operator was applied to values of the wrong types. -/
  | operandType (operator expected : String)
  /-- An expression depends on a state. -/
  | notConstant (what : String)
deriving DecidableEq, Repr, Inhabited

namespace Fault

/-- The name of a fault. -/
def name : Fault → String
  | unrecognisedToken _ => "UnrecognisedToken"
  | unterminatedString => "UnterminatedString"
  | unexpectedToken _ => "UnexpectedToken"
  | unexpectedTokenDetailed .. => "UnexpectedTokenDetailed"
  | invalidNumber _ => "NumberParseError"
  | expectedExpression _ => "ExpectedExpression"
  | invalidAssignmentTarget => "InvalidAssignmentTarget"
  | operandType .. => "OperandTypeError"
  | notConstant _ => "NotConstant"

/-- The message of a fault, with source texts in quotes. -/
def message : Fault → String
  | unrecognisedToken token => "unrecognised token: " ++ Text.quoted token
  | unterminatedString => "unterminated string"
  | unexpectedToken token => "unexpected token: " ++ Text.quoted token
  | unexpectedTokenDetailed token message =>
      "unexpected token (" ++ Text.quoted message ++ "): " ++ Text.quoted token
  | invalidNumber token => "error parsing number: " ++ Text.quoted token
  | expectedExpression token => "expected expression, found " ++ Text.quoted token
  | invalidAssignmentTarget => "invalid assignment target"
  | operandType operator expected =>
      "operands of " ++ Text.quoted operator ++ " must be " ++ expected
  | notConstant what => what ++ " is not a constant expression"

/-- What to do about a fault, with source texts between backticks. -/
def tip? : Fault → Option String
  | unrecognisedToken _ => none
  | unterminatedString => some "String literal is never closed"
  | unexpectedToken token => some ("Unexpected token: `" ++ token ++ "`")
  | unexpectedTokenDetailed token message =>
      some ("Unexpected token: `" ++ token ++ "`, " ++ message)
  | invalidNumber token => some ("Invalid number: `" ++ token ++ "`")
  | expectedExpression token =>
      some ("Expected an expression, found `" ++ token ++ "`")
  | invalidAssignmentTarget =>
      some "Only variables and properties can be assigned to"
  | operandType operator expected =>
      some ("Operands of `" ++ operator ++ "` must be " ++ expected)
  | notConstant what =>
      some (what ++ " cannot be evaluated without a running program")

end Fault

/-- A fault at a position. -/
structure Diagnostic where
  fault : Fault
  position : Position
deriving DecidableEq, Repr, Inhabited

namespace Diagnostic

/-- The message of a diagnostic, followed by its file and offset. -/
def display (d : Diagnostic) : String :=
  d.fault.message ++ " at " ++ d.position.file ++ ":" ++
    toString d.position.offset.toNat

end Diagnostic

end ExprLang
