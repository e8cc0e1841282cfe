import ExprLang.Decimal.Shortest
import Mathlib.Algebra.Order.Field.Power
import Mathlib.Algebra.Order.Field.Rat
import Mathlib.Data.Rat.Cast.Order
import Mathlib.Tactic.Linarith
import Mathlib.Tactic.Ring

/-!
# Decimals that round to a binary value

The comparisons of whole numbers on a decimal grid are comparisons of rationals: a grid
point reads back as a value exactly if it lies in the interval of what rounds to the
value.  The intervals of two values touch in a point at most, and never in a point of
both, because of two neighbours one has an odd mantissa.

Main results:

- Theorem `Binary.readsBack_iff`: what reads back lies in the interval.
- Theorem `Binary.covers_shortest`: the shortest decimal lies in the interval.
- Theorem `Binary.Canonical.eq_of_covers`: no rational rounds to two values.
-/

namespace ExprLang.Decimal

/-- The number that a decimal stands for. -/
def Scaled.value (d : Scaled) : ℚ :=
  d.digits * (10 : ℚ) ^ d.exponent

namespace Binary

variable {x y : Binary} {q : ℚ}

/-! ## Intervals -/

/-- A quarter of the unit of the mantissa. -/
def quarter (x : Binary) : ℚ :=
  (2 : ℚ) ^ (x.exponent - 2)

private theorem quarter_pos (x : Binary) : 0 < x.quarter :=
  zpow_pos (by decide) _

/-- The interval of what rounds to the value.  Its ends belong to it exactly if the
mantissa is even. -/
def Covers (x : Binary) (q : ℚ) : Prop :=
  if x.mantissa % 2 = 0 then
    x.lowest * x.quarter ≤ q ∧ q ≤ x.highest * x.quarter
  else
    x.lowest * x.quarter < q ∧ q < x.highest * x.quarter

private theorem Covers.lowest_le (h : x.Covers q) : x.lowest * x.quarter ≤ q := by
  unfold Covers at h
  split at h
  · exact h.1
  · exact h.1.le

private theorem Covers.le_highest (h : x.Covers q) : q ≤ x.highest * x.quarter := by
  unfold Covers at h
  split at h
  · exact h.2
  · exact h.2.le

private theorem Covers.of_odd (h : x.Covers q) (hodd : x.mantissa % 2 = 1) :
    x.lowest * x.quarter < q ∧ q < x.highest * x.quarter := by
  rwa [Covers, if_neg (by omega)] at h

/-! ## Grid points -/

/-- A power of a whole exponent is brought to a power of a natural one. -/
theorem zpow_mul_pow_toNat_neg {b : ℚ} (hb : b ≠ 0) (n : ℤ) :
    b ^ n * b ^ (-n).toNat = b ^ n.toNat := by
  rw [← zpow_natCast, ← zpow_natCast, ← zpow_add₀ hb]
  congr 1
  omega

/-- What the lengths of a grid are measured in. -/
def scale (x : Binary) (exponent : ℤ) : ℚ :=
  2 ^ (-(x.exponent - 2)).toNat * 10 ^ (-exponent).toNat

private theorem scale_pos (x : Binary) (exponent : ℤ) : 0 < x.scale exponent := by
  unfold scale
  positivity

/-- The step of a grid is its power of ten, in the common unit. -/
theorem step_grid_eq (x : Binary) (exponent : ℤ) :
    ((x.grid exponent).step : ℚ) = 10 ^ exponent * x.scale exponent := by
  have hpow := zpow_mul_pow_toNat_neg (b := 10) (by norm_num) exponent
  simp only [grid, scale, Nat.pow_eq, Nat.cast_mul, Nat.cast_pow, Nat.cast_ofNat]
  rw [← hpow]
  ring

/-- The quarter of a grid is that of the value, in the common unit. -/
theorem quarter_grid_eq (x : Binary) (exponent : ℤ) :
    ((x.grid exponent).quarter : ℚ) = x.quarter * x.scale exponent := by
  have hpow := zpow_mul_pow_toNat_neg (b := 2) (by norm_num) (x.exponent - 2)
  simp only [grid, scale, quarter, Nat.pow_eq, Nat.cast_mul, Nat.cast_pow, Nat.cast_ofNat]
  rw [← hpow]
  ring

/-- A grid point reads back as a value exactly if it lies in the interval of the value. -/
theorem readsBack_iff (x : Binary) (exponent : ℤ) (point : ℕ) :
    x.readsBack (x.grid exponent) point = true ↔
      x.Covers (point * (10 : ℚ) ^ exponent) := by
  have hpos := x.scale_pos exponent
  have hplace : ((point * (x.grid exponent).step : ℕ) : ℚ) =
      point * 10 ^ exponent * x.scale exponent := by
    rw [Nat.cast_mul, step_grid_eq, mul_assoc]
  have hend (n : ℕ) : ((n * (x.grid exponent).quarter : ℕ) : ℚ) =
      n * x.quarter * x.scale exponent := by
    rw [Nat.cast_mul, quarter_grid_eq, mul_assoc]
  unfold readsBack Covers
  split
  · simp only [Bool.and_eq_true, decide_eq_true_eq, ← Nat.cast_le (α := ℚ), hplace, hend,
      mul_le_mul_iff_of_pos_right hpos]
  · simp only [Bool.and_eq_true, decide_eq_true_eq, ← Nat.cast_lt (α := ℚ), hplace, hend,
      mul_lt_mul_iff_of_pos_right hpos]

/-! ## The shortest decimal -/

/-- The value itself lies in its interval. -/
theorem covers_self (x : Binary) : x.Covers (x.mantissa * 2 ^ x.exponent) := by
  have hvalue : (x.mantissa : ℚ) * 2 ^ x.exponent = (x.quarters : ℚ) * x.quarter := by
    rw [quarter, zpow_sub₀ (by norm_num), quarters]
    push_cast
    ring
  have hhigh : (x.quarters : ℚ) * x.quarter < x.highest * x.quarter :=
    mul_lt_mul_of_pos_right (Nat.cast_lt.2 (Nat.lt_add_of_pos_right (by decide)))
      x.quarter_pos
  rw [hvalue, Covers]
  split
  · refine ⟨?_, hhigh.le⟩
    exact mul_le_mul_of_nonneg_right (Nat.cast_le.2 (Nat.sub_le _ _)) x.quarter_pos.le
  · have hlowest : x.lowest < x.quarters := by
      unfold lowest quarters
      split <;> omega
    exact ⟨mul_lt_mul_of_pos_right (Nat.cast_lt.2 hlowest) x.quarter_pos, hhigh⟩

/-- Written out in full, a value is itself. -/
theorem value_exact (x : Binary) : x.exact.value = x.mantissa * 2 ^ x.exponent := by
  unfold exact Scaled.value
  split
  · rename_i hexponent
    rw [zpow_zero, mul_one, Nat.pow_eq, Nat.cast_mul, Nat.cast_pow, Nat.cast_ofNat,
      ← zpow_natCast, Int.toNat_of_nonneg hexponent]
  · rename_i hexponent
    have hfive : ((5 : ℚ) ^ (-x.exponent).toNat) = 5 ^ (-x.exponent) := by
      rw [← zpow_natCast, Int.toNat_of_nonneg (by omega)]
    have hten : (10 : ℚ) ^ x.exponent = 2 ^ x.exponent * 5 ^ x.exponent := by
      rw [← mul_zpow]
      norm_num
    simp only [Nat.pow_eq, Nat.cast_mul, Nat.cast_pow, Nat.cast_ofNat, hfive, hten, zpow_neg]
    have hne : (5 : ℚ) ^ x.exponent ≠ 0 := zpow_ne_zero _ (by norm_num)
    rw [mul_assoc, mul_comm (2 ^ x.exponent), inv_mul_cancel_left₀ hne]

/-- The shortest decimal lies in the interval of the value. -/
theorem covers_shortest (x : Binary) : x.Covers x.shortest.value := by
  unfold shortest
  dsimp only
  cases hfound : (List.range 17).findSome? fun (extra : ℕ) =>
      (x.nearest? (x.grid (x.magnitude - 1 - (extra : ℤ)))).map
        (Scaled.mk · (x.magnitude - 1 - (extra : ℤ))) with
  | none =>
      rw [Option.getD_none, value_exact]
      exact x.covers_self
  | some d =>
      rcases List.exists_of_findSome?_eq_some hfound with ⟨extra, -, hextra⟩
      rcases Option.map_eq_some_iff.1 hextra with ⟨point, hpoint, rfl⟩
      exact (x.readsBack_iff _ point).1 (nearest?_readsBack hpoint)

/-- A positive value has a digit in its shortest decimal. -/
theorem digits_shortest_pos (h : 0 < x.mantissa) : 0 < x.shortest.digits := by
  have hlowest : 0 < x.lowest := by
    unfold lowest quarters
    split <;> omega
  rw [Nat.pos_iff_ne_zero]
  intro hzero
  have hle := x.covers_shortest.lowest_le
  rw [Scaled.value, hzero, Nat.cast_zero, zero_mul] at hle
  exact absurd hle (not_le.2 (mul_pos (Nat.cast_pos.2 hlowest) x.quarter_pos))

/-! ## Uniqueness -/

/-- A value whose mantissa is scaled as that of a floating-point number: it has 53 bits,
or fewer at the least exponent. -/
structure Canonical (x : Binary) : Prop where
  mantissa_lt : x.mantissa < 2 ^ 53
  exponent_cases : x.exponent = -1074 ∨ -1074 < x.exponent ∧ 2 ^ 52 ≤ x.mantissa
  narrow : x.mantissa = 2 ^ 52 → -1074 < x.exponent → x.narrowBelow = true

/-- The order of values. -/
def Before (x y : Binary) : Prop :=
  x.exponent < y.exponent ∨ x.exponent = y.exponent ∧ x.mantissa < y.mantissa

/-- Of the intervals of two values the first one ends where the second one starts, or
before.  If they touch, one of the mantissas is odd. -/
theorem Canonical.highest_le_lowest (hx : x.Canonical) (hy : y.Canonical)
    (h : x.Before y) :
    let shift := (y.exponent - x.exponent).toNat
    x.highest < y.lowest * 2 ^ shift ∨
      x.highest = y.lowest * 2 ^ shift ∧ (x.mantissa % 2 = 1 ∨ y.mantissa % 2 = 1) := by
  have hxlt := hx.mantissa_lt
  rcases h with hexponent | ⟨hexponent, hmantissa⟩
  · -- The first interval has room for half the numbers below the second.
    have hbelow : -1074 < y.exponent := by
      rcases hx.exponent_cases with hx | hx <;> omega
    have hnormal : 2 ^ 52 ≤ y.mantissa := by
      rcases hy.exponent_cases with hy | hy
      · omega
      · exact hy.2
    have hlowest : 2 ^ 54 - 1 ≤ y.lowest := by
      unfold lowest quarters
      by_cases hleast : y.mantissa = 2 ^ 52
      · rw [if_pos (hy.narrow hleast hbelow)]
        omega
      · split <;> omega
    have hshift : y.lowest * 2 ^ 1 ≤ y.lowest * 2 ^ (y.exponent - x.exponent).toNat :=
      Nat.mul_le_mul_left _ (Nat.pow_le_pow_right (by decide) (by omega))
    simp only [highest, quarters]
    omega
  · have hlowest : 4 * y.mantissa - 2 ≤ y.lowest := by
      unfold lowest quarters
      split <;> omega
    have hshift : (y.exponent - x.exponent).toNat = 0 := by
      omega
    simp only [highest, quarters, hshift, pow_zero, mul_one]
    omega

/-- No rational rounds to two values. -/
theorem Canonical.not_covers_of_before (hx : x.Canonical) (hy : y.Canonical)
    (h : x.Before y) (hxq : x.Covers q) : ¬ y.Covers q := by
  intro hyq
  have hshift : y.quarter = 2 ^ (y.exponent - x.exponent).toNat * x.quarter := by
    have hle : x.exponent ≤ y.exponent := by
      rcases h with h | h <;> omega
    rw [quarter, quarter, ← zpow_natCast, ← zpow_add₀ (by norm_num)]
    congr 1
    omega
  have hlowest : (y.lowest : ℚ) * y.quarter =
      ((y.lowest * 2 ^ (y.exponent - x.exponent).toNat : ℕ) : ℚ) * x.quarter := by
    rw [hshift]
    push_cast
    ring
  rcases hx.highest_le_lowest hy h with hlt | ⟨heq, hodd⟩
  · have hapart := mul_lt_mul_of_pos_right (Nat.cast_lt (α := ℚ).2 hlt) x.quarter_pos
    rw [← hlowest] at hapart
    exact absurd (hyq.lowest_le.trans hxq.le_highest) (not_le.2 hapart)
  · rw [← heq] at hlowest
    rcases hodd with hodd | hodd
    · have hlt := (hxq.of_odd hodd).2
      rw [← hlowest] at hlt
      exact absurd hyq.lowest_le (not_le.2 hlt)
    · have hlt := (hyq.of_odd hodd).1
      rw [hlowest] at hlt
      exact absurd hxq.le_highest (not_le.2 hlt)

/-- A rational rounds to one value at most. -/
theorem Canonical.eq_of_covers (hx : x.Canonical) (hy : y.Canonical) (hxq : x.Covers q)
    (hyq : y.Covers q) : x.mantissa = y.mantissa ∧ x.exponent = y.exponent := by
  have hxy : ¬ x.Before y := fun h => hx.not_covers_of_before hy h hxq hyq
  have hyx : ¬ y.Before x := fun h => hy.not_covers_of_before hx h hyq hxq
  unfold Before at hxy hyx
  omega

end Binary

end ExprLang.Decimal
