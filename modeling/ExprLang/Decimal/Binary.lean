/-!
# Binary values and decimal grids

A positive finite floating-point number is a mantissa times a power of two.
The reals that round to it form an interval around it, which is measured here
in quarters of the unit of the mantissa.  A decimal grid, the multiples of a
power of ten, is brought to a common unit with these quarters, so that all
comparisons are between natural numbers.
-/

namespace ExprLang.Decimal

/-- The positive value `mantissa * 2 ^ exponent`. -/
structure Binary where
  mantissa : Nat
  exponent : Int
  /-- Whether the value below is only half as far away as the value above. -/
  narrowBelow : Bool
deriving DecidableEq, Repr

/-- The magnitude held in the bits of a finite number, whatever its sign. -/
def Binary.ofBits (bits : UInt64) : Binary :=
  let exponentField : Nat := bits.toNat / Nat.pow 2 52 % Nat.pow 2 11
  let fractionField : Nat := bits.toNat % Nat.pow 2 52
  if exponentField = 0 then
    ⟨fractionField, -1074, false⟩
  else
    ⟨Nat.pow 2 52 + fractionField, (exponentField : Int) - 1075, fractionField = 0⟩

/-- The value, in quarters of the unit of its mantissa. -/
def Binary.quarters (x : Binary) : Nat :=
  4 * x.mantissa

/-- The least real that may round to the value, in quarters. -/
def Binary.lowest (x : Binary) : Nat :=
  x.quarters - if x.narrowBelow then 1 else 2

/-- The greatest real that may round to the value, in quarters. -/
def Binary.highest (x : Binary) : Nat :=
  x.quarters + 2

/-- The lengths of a decimal step and of a quarter, in a common unit. -/
structure Grid where
  step : Nat
  quarter : Nat
deriving DecidableEq, Repr

/-- The multiples of `10 ^ exponent`, set against the quarters of a value. -/
def Binary.grid (x : Binary) (exponent : Int) : Grid :=
  let unit := x.exponent - 2
  { step := Nat.pow 10 exponent.toNat * Nat.pow 2 (-unit).toNat
    quarter := Nat.pow 2 unit.toNat * Nat.pow 10 (-exponent).toNat }

/-- The last grid point that does not exceed a number of quarters. -/
def Grid.below (g : Grid) (quarters : Nat) : Nat :=
  quarters * g.quarter / g.step

/-- Whether a grid point lies among the reals that round to the value.  The two
ends of the interval belong to it exactly if the mantissa is even. -/
def Binary.readsBack (x : Binary) (g : Grid) (point : Nat) : Bool :=
  let place := point * g.step
  let lower := x.lowest * g.quarter
  let upper := x.highest * g.quarter
  if x.mantissa % 2 = 0 then
    lower ≤ place && place ≤ upper
  else
    lower < place && place < upper

end ExprLang.Decimal
