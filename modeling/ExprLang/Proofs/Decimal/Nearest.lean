import ExprLang.Decimal.Reading

/-!
# Numbers nearest to decimals

The number nearest to a decimal is computed from finite numbers, by multiplying or
dividing with a power of ten.  It may be infinite, because the digits or the result are
too large, but it is always a number.

Main results:

- Theorem `isNaN_pack`: rounding to the bits of a number loses no number.
- Theorem `isNaN_nearestFloat`: what digits denote is a number.
-/

namespace ExprLang.Decimal

open Float.Model Float.Model.UnpackedFloat

variable {spec : Format} {u : UnpackedFloat} {s : Sign} {m : Nat} {e : Int} {h : 0 < m}

/-! ## Arithmetic -/

private theorem isNaN_roundWithAccuracy (accuracy : Accuracy) :
    (roundWithAccuracy spec s m e accuracy).isNaN = false := by
  unfold roundWithAccuracy
  exact (apply_dite UnpackedFloat.isNaN ..).trans (ite_self false)

private theorem isNaN_mul_finite (hu : u.isNaN = false) :
    (UnpackedFloat.mul spec u (.finite s m e h)).isNaN = false := by
  cases u with
  | notANumber => cases hu
  | infinity => rfl
  | zero => rfl
  | finite => exact isNaN_roundWithAccuracy _

private theorem isNaN_div_finite (hu : u.isNaN = false) :
    (UnpackedFloat.div spec u (.finite s m e h)).isNaN = false := by
  cases u with
  | notANumber => cases hu
  | infinity => rfl
  | zero => rfl
  | finite => exact isNaN_roundWithAccuracy _

private theorem isNaN_ofNat (n : Nat) : (UnpackedFloat.ofNat spec n).isNaN = false := by
  unfold UnpackedFloat.ofNat UnpackedFloat.ofInt UnpackedFloat.normalize
  split
  · exact isNaN_roundWithAccuracy _
  · rfl
  · exact isNaN_roundWithAccuracy _

/-- Rounding a decimal never gives a NaN, however it is scaled. -/
theorem isNaN_ofScientific (m : Nat) (e : Int) :
    (UnpackedFloat.ofScientific spec m e).isNaN = false := by
  unfold UnpackedFloat.ofScientific
  by_cases hzero : m = 0
  · rw [dif_pos hzero]
    rfl
  · rw [dif_neg hzero]
    by_cases hlarge : e > 2 ^ spec.exponentBits
    · rw [if_pos hlarge]
      rfl
    · rw [if_neg hlarge]
      by_cases hsmall : e < -(2 ^ spec.exponentBits + (m.log2 : Int))
      · rw [if_pos hsmall]
        rfl
      · rw [if_neg hsmall]
        by_cases hsign : 0 ≤ e
        · rw [if_pos hsign]
          exact isNaN_mul_finite rfl
        · rw [if_neg hsign]
          exact isNaN_div_finite rfl

/-! ## Bits -/

/-- The bits are those of a number unless the exponent is the greatest and the fraction
is not zero. -/
theorem isNaN_unpack_packComponents {exponent : BitVec spec.exponentBits}
    {mantissa : BitVec spec.mantissaBitsWithoutImplicit}
    (hexponent : exponent = -1#_ → mantissa = 0#_) :
    (UnpackedFloat.unpack spec (packComponents spec s exponent mantissa)).isNaN = false := by
  unfold UnpackedFloat.unpack
  dsimp only
  rw [unpackExponent_packComponents]
  by_cases htop : exponent = -1#_
  · rw [if_pos htop, unpackMantissa_packComponents, if_pos (hexponent htop)]
    rfl
  · rw [if_neg htop]
    by_cases hzero : exponent = 0#_
    · rw [if_pos hzero]
      by_cases hmantissa : unpackMantissa (packComponents spec s exponent mantissa) = 0#_
      · rw [dif_pos hmantissa]
        rfl
      · rw [dif_neg hmantissa]
        rfl
    · rw [if_neg hzero]
      rfl

/-- Rounding to the bits of a number loses no number. -/
theorem isNaN_pack (hu : u.isNaN = false) : (Float.ofModel (.pack u)).isNaN = false := by
  change (UnpackedFloat.unpack .binary64 (UnpackedFloat.pack .binary64 u)).isNaN = false
  cases u with
  | notANumber => cases hu
  | infinity s => exact isNaN_unpack_packComponents fun _ => rfl
  | zero s => exact isNaN_unpack_packComponents fun _ => rfl
  | finite s m e h =>
      unfold UnpackedFloat.pack
      dsimp only
      split
      · exact isNaN_unpack_packComponents fun _ => rfl
      · split
        · rename_i hsmall _
          refine isNaN_unpack_packComponents fun htop => absurd hsmall (Classical.not_not.2 ?_)
          have hfield := congrArg BitVec.toNat htop
          rw [BitVec.toNat_ofNat, BitVec.neg_one_eq_allOnes, BitVec.toNat_allOnes] at hfield
          change _ % 2 ^ 11 = 2 ^ 11 - 1 at hfield
          change 2 ^ 11 ≤ _
          omega
        · exact isNaN_unpack_packComponents fun htop => absurd htop (by decide)

private theorem isNaN_mul {x y : Float} (hx : x.isNaN = false)
    (hy : y.toModel.unpack = .finite s m e h) : (x * y).isNaN = false := by
  refine isNaN_pack ?_
  rw [hy]
  exact isNaN_mul_finite hx

private theorem isNaN_div {x y : Float} (hx : x.isNaN = false)
    (hy : y.toModel.unpack = .finite s m e h) : (x / y).isNaN = false := by
  refine isNaN_pack ?_
  rw [hy]
  exact isNaN_div_finite hx

/-! ## Decimals -/

/-- The tabled powers of ten are neither infinite nor zero. -/
theorem exists_powerOfTen (i : Nat) (hi : i < Float.exactlyRepresentablePowersOfTen.size) :
    ∃ s m e h, Float.exactlyRepresentablePowersOfTen[i].toModel.unpack = .finite s m e h := by
  have hfinite : ∀ i : Fin 23, Float.exactlyRepresentablePowersOfTen[i].isFinite = true := by
    decide
  have hpositive : ∀ i : Fin 23, (Float.exactlyRepresentablePowersOfTen[i] == 0) = false := by
    decide
  specialize hfinite ⟨i, hi⟩
  specialize hpositive ⟨i, hi⟩
  rw [Fin.getElem_fin] at hfinite hpositive
  generalize Float.exactlyRepresentablePowersOfTen[i] = power at hfinite hpositive ⊢
  change power.toModel.unpack.isFinite = true at hfinite
  change (power.toModel.unpack.compare (.zero .positive) == some .eq) = false at hpositive
  cases hunpack : power.toModel.unpack with
  | notANumber =>
      rw [hunpack] at hfinite
      cases hfinite
  | infinity =>
      rw [hunpack] at hfinite
      cases hfinite
  | zero =>
      rw [hunpack] at hpositive
      cases hpositive
  | finite s m e h => exact ⟨s, m, e, h, rfl⟩

/-- What digits denote is a number, though it may be infinite. -/
theorem isNaN_nearestFloat (digits : Nat) (exponent : Int) :
    (nearestFloat digits exponent).isNaN = false := by
  unfold nearestFloat Float.ofScientific
  split
  · rename_i hsmall
    have hdigits := isNaN_pack (@isNaN_ofNat .binary64 digits.toUInt64.toNat)
    rcases exists_powerOfTen exponent.natAbs (Nat.lt_succ_of_le hsmall.2) with
      ⟨s, m, e, h, hpower⟩
    dsimp only
    split
    · exact isNaN_div hdigits hpower
    · exact isNaN_mul hdigits hpower
  · exact isNaN_pack (isNaN_ofScientific ..)

end ExprLang.Decimal
