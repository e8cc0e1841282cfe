import ExprLang.Decimal.Shortest

/-!
# Numbers in positional form

A number is written with its shortest digits, and always positionally: there is
no exponent however large or small the number is, and no point after a whole
number.  A negative zero keeps its sign; what is not a number has none.
-/

namespace ExprLang.Decimal

/-- Lays digits out around a point that stands behind the first `point` of
them; zeros fill the places that the digits do not reach. -/
def positional (digits : List Char) (point : Int) : List Char :=
  let places := point.toNat
  if point ≤ 0 then
    ['0', '.'] ++ List.replicate (-point).toNat '0' ++ digits
  else if digits.length ≤ places then
    digits ++ List.replicate (places - digits.length) '0'
  else
    digits.take places ++ '.' :: digits.drop places

/-- A positive decimal in positional form, without zeros at its end. -/
def Scaled.text (d : Scaled) : List Char :=
  let digits := Nat.toDigits 10 d.digits
  let significant := (digits.reverse.dropWhile (· == '0')).reverse
  positional significant (d.exponent + digits.length)

/-- Whether the sign bit of a number is set. -/
def signBit (x : Float) : Bool :=
  x.toBits.toNat.testBit 63

/-- The text of a number. -/
def numberText (x : Float) : String :=
  if x.isNaN then
    "NaN"
  else
    let magnitude :=
      if x.isInf then
        "inf"
      else if x == 0 then
        "0"
      else
        String.ofList (Binary.ofBits x.toBits).shortest.text
    if signBit x then "-" ++ magnitude else magnitude

end ExprLang.Decimal
