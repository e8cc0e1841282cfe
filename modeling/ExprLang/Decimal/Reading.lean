/-!
# Reading decimal numbers

The texts that denote a number are an optional sign followed by digits with an
optional point among or around them and an optional exponent, or by one of the
words `inf`, `infinity` and `nan` in any mixture of cases.  Nothing may stand
before or after.  The value is the nearest floating-point number; what is too
large for one is infinite.
-/

namespace ExprLang.Decimal

/-- The number that a list of decimal digits denotes, behind digits that denote
`start`. -/
def digitsValue (start : Nat) (digits : List Char) : Nat :=
  digits.foldl (fun value c => 10 * value + (c.toNat - '0'.toNat)) start

/-- Exponents are not told apart once they are this large: every further digit
is dropped. -/
def exponentCap : Nat :=
  0x10000

/-- The value of the digits of an exponent. -/
def exponentValue (digits : List Char) : Nat :=
  digits.foldl
    (fun value c =>
      if value < exponentCap then 10 * value + (c.toNat - '0'.toNat) else value)
    0

/-- The value of a whole list of digits with an optional sign in front. -/
def signedExponent? (cs : List Char) : Option Int :=
  let value? (digits : List Char) : Option Int :=
    if digits ≠ [] ∧ digits.all Char.isDigit then
      some (exponentValue digits : Int)
    else
      none
  match cs with
  | '-' :: digits => (value? digits).map (-·)
  | '+' :: digits => value? digits
  | digits => value? digits

/-- Splits an unsigned decimal into its digits before and behind the point and
what follows them. -/
def splitPoint (cs : List Char) : List Char × List Char × List Char :=
  let whole := cs.takeWhile Char.isDigit
  match cs.dropWhile Char.isDigit with
  | '.' :: rest => (whole, rest.takeWhile Char.isDigit, rest.dropWhile Char.isDigit)
  | rest => (whole, [], rest)

/-- The nearest number to `digits * 10 ^ exponent`. -/
def nearestFloat (digits : Nat) (exponent : Int) : Float :=
  Float.ofScientific digits (exponent < 0) exponent.natAbs

/-- Reads digits, an optional point, and an optional exponent. -/
def decimal? (cs : List Char) : Option Float :=
  let (whole, fraction, rest) := splitPoint cs
  if whole ++ fraction = [] then
    none
  else
    let digits := digitsValue (digitsValue 0 whole) fraction
    let exponent? : Option Int :=
      match rest with
      | [] => some 0
      | mark :: rest => if mark = 'e' ∨ mark = 'E' then signedExponent? rest else none
    exponent?.map fun exponent => nearestFloat digits (exponent - fraction.length)

/-- Reads one of the words for numbers without digits. -/
def word? (cs : List Char) : Option Float :=
  match String.ofList (cs.map Char.toLower) with
  | "inf" | "infinity" => some (1.0 / 0.0)
  | "nan" => some (0.0 / 0.0)
  | _ => none

/-- Reads a number without a sign. -/
def unsigned? (cs : List Char) : Option Float :=
  decimal? cs <|> word? cs

/-- The number that a text denotes. -/
def read? (s : String) : Option Float :=
  match s.toList with
  | '-' :: cs => (unsigned? cs).map (-·)
  | '+' :: cs => unsigned? cs
  | cs => unsigned? cs

end ExprLang.Decimal
