import ExprLang.Decimal.Binary

/-!
# The shortest decimal of a binary value

A binary value is written with the fewest decimal digits that still round to
it.  Of two such decimals the nearer one is taken, and the greater one if both
are equally near.

Main result:

- Theorem `Binary.nearest?_readsBack`: what a grid offers rounds to the value.
-/

namespace ExprLang.Decimal

/-- The number `digits * 10 ^ exponent`. -/
structure Scaled where
  digits : Nat
  exponent : Int
deriving DecidableEq, Repr

/-- Number of decimal digits; zero has one. -/
def digitCount (n : Nat) : Nat :=
  (Nat.toDigits 10 n).length

/-- The least power of ten above the value. -/
def Binary.magnitude (x : Binary) : Int :=
  let units := x.grid 0
  let scaled := x.quarters * units.quarter
  let whole := scaled / units.step
  if whole = 0 then
    1 - (digitCount ((units.step - 1) / scaled) : Int)
  else
    digitCount whole

/-- The grid point next to the value that rounds to it, if there is one. -/
def Binary.nearest? (x : Binary) (g : Grid) : Option Nat :=
  let below := g.below x.quarters
  match x.readsBack g below, x.readsBack g (below + 1) with
  | true, true =>
      if 2 * (x.quarters * g.quarter) < (2 * below + 1) * g.step then
        some below
      else
        some (below + 1)
  | true, false => some below
  | false, true => some (below + 1)
  | false, false => none

/-- The grid point that is taken rounds to the value. -/
theorem Binary.nearest?_readsBack {x : Binary} {g : Grid} {point : Nat}
    (h : x.nearest? g = some point) : x.readsBack g point = true := by
  unfold nearest? at h
  grind

/-- The value written out in full. -/
def Binary.exact (x : Binary) : Scaled :=
  if 0 ≤ x.exponent then
    ⟨x.mantissa * Nat.pow 2 x.exponent.toNat, 0⟩
  else
    ⟨x.mantissa * Nat.pow 5 (-x.exponent).toNat, x.exponent⟩

/-- The fewest digits that round to the value.  Seventeen digits are enough for
every number; the grids are tried from the coarsest on. -/
def Binary.shortest (x : Binary) : Scaled :=
  let magnitude := x.magnitude
  let found := (List.range 17).findSome? fun (extra : Nat) =>
    let exponent := magnitude - 1 - (extra : Int)
    (x.nearest? (x.grid exponent)).map (Scaled.mk · exponent)
  found.getD x.exact

end ExprLang.Decimal
