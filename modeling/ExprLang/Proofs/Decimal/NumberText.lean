import ExprLang.Proofs.Decimal.Notation

/-!
# The texts of numbers

A finite number is written as digits with an optional point, behind a sign if its sign
bit is set.  The text denotes a decimal that rounds to the magnitude of the number, and
no other magnitude is rounded to by the same decimal, so the text tells the number.

Main results:

- Theorem `covers_magnitudeText`: the text of a magnitude denotes a decimal that rounds
  to it.
- Theorem `numberText_injective`: finite numbers with the same text are the same.
-/

namespace ExprLang.Decimal

open Float.Model Float.Model.UnpackedFloat Lexeme

variable {x y : Float}

/-! ## Fields -/

/-- The biased exponent in the bits of a number. -/
def exponentField (x : Float) : ℕ :=
  x.toBits.toNat / 2 ^ 52 % 2 ^ 11

/-- The fraction in the bits of a number. -/
def fractionField (x : Float) : ℕ :=
  x.toBits.toNat % 2 ^ 52

/-- The exponent that is unpacked from a float is that of its bits. -/
theorem unpackExponent_eq_iff (x : Float) (n : BitVec Format.binary64.exponentBits) :
    @unpackExponent .binary64 x.toModel.toBits.toBitVec = n ↔ exponentField x = n.toNat := by
  have hfield : (@unpackExponent .binary64 x.toModel.toBits.toBitVec).toNat =
      exponentField x := by
    unfold unpackExponent exponentField
    rw [BitVec.toNat_cast, BitVec.extractLsb_toNat, Nat.shiftRight_eq_div_pow]
    rfl
  rw [← BitVec.toNat_inj, hfield]

/-- The mantissa that is unpacked from a float is zero if the field in its bits is. -/
theorem unpackMantissa_eq_zero_iff (x : Float) :
    @unpackMantissa .binary64 x.toModel.toBits.toBitVec = 0#_ ↔ fractionField x = 0 := by
  have hfield : (@unpackMantissa .binary64 x.toModel.toBits.toBitVec).toNat =
      fractionField x := by
    unfold unpackMantissa fractionField
    rw [BitVec.toNat_cast, BitVec.extractLsb_toNat, Nat.shiftRight_zero]
    rfl
  rw [← BitVec.toNat_inj, hfield]
  rfl

/-- The fields tell whether a number is infinite or none, zero, or another one. -/
theorem unpack_cases (x : Float) :
    (exponentField x = 2047 ∧ x.toModel.unpack.isFinite = false) ∨
      (exponentField x = 0 ∧ fractionField x = 0 ∧ ∃ s, x.toModel.unpack = .zero s) ∨
      (exponentField x ≠ 2047 ∧ ¬ (exponentField x = 0 ∧ fractionField x = 0) ∧
        x.toModel.unpack.isFinite = true ∧ ∀ s, x.toModel.unpack ≠ .zero s) := by
  unfold Float.Model.unpack UnpackedFloat.unpack
  dsimp only
  by_cases htop : @unpackExponent .binary64 x.toModel.toBits.toBitVec = -1#_
  · rw [if_pos htop]
    refine .inl ⟨(unpackExponent_eq_iff x _).1 htop, ?_⟩
    split <;> rfl
  · rw [if_neg htop]
    rw [unpackExponent_eq_iff] at htop
    by_cases hzero : @unpackExponent .binary64 x.toModel.toBits.toBitVec = 0#_
    · rw [if_pos hzero]
      rw [unpackExponent_eq_iff] at hzero
      by_cases hfraction : @unpackMantissa .binary64 x.toModel.toBits.toBitVec = 0#_
      · rw [dif_pos hfraction]
        rw [unpackMantissa_eq_zero_iff] at hfraction
        exact .inr (.inl ⟨hzero, hfraction, _, rfl⟩)
      · rw [dif_neg hfraction]
        rw [unpackMantissa_eq_zero_iff] at hfraction
        refine .inr (.inr ⟨htop, fun h => hfraction h.2, rfl, ?_⟩)
        rintro s ⟨⟩
    · rw [if_neg hzero]
      rw [unpackExponent_eq_iff] at hzero
      refine .inr (.inr ⟨htop, fun h => hzero h.1, rfl, ?_⟩)
      rintro s ⟨⟩

/-- A float is finite exactly if it is neither a NaN nor infinite. -/
theorem isFinite_eq (x : Float) : x.isFinite = (!x.isNaN && !x.isInf) := by
  change x.toModel.unpack.isFinite = (!x.toModel.unpack.isNaN && !x.toModel.unpack.isInf)
  cases x.toModel.unpack <;> rfl

/-- A float equals zero exactly if both fields of its bits are zero. -/
theorem beq_zero_iff : (x == 0) = true ↔ exponentField x = 0 ∧ fractionField x = 0 := by
  have hbeq : (x == 0) = true ↔ ∃ s, x.toModel.unpack = .zero s := by
    change (x.toModel.unpack.compare (.zero .positive) == some .eq) = true ↔ _
    cases x.toModel.unpack with
    | infinity s => cases s <;> exact iff_of_false Bool.false_ne_true (by rintro ⟨s, ⟨⟩⟩)
    | notANumber => exact iff_of_false Bool.false_ne_true (by rintro ⟨s, ⟨⟩⟩)
    | zero s => exact iff_of_true rfl ⟨s, rfl⟩
    | finite s => cases s <;> exact iff_of_false Bool.false_ne_true (by rintro ⟨s, ⟨⟩⟩)
  rw [hbeq]
  rcases unpack_cases x with ⟨htop, hfinite⟩ | ⟨hzero, hfraction, hs⟩ | ⟨-, hne, -, hs⟩
  · rw [htop]
    refine iff_of_false ?_ (by simp)
    rintro ⟨s, hs⟩
    rw [hs] at hfinite
    cases hfinite
  · exact iff_of_true hs ⟨hzero, hfraction⟩
  · exact iff_of_false (not_exists.2 hs) hne

/-! ## Texts -/

private theorem ofBits_eq (x : Float) : Binary.ofBits x.toBits =
    if exponentField x = 0 then
      ⟨fractionField x, -1074, false⟩
    else
      ⟨2 ^ 52 + fractionField x, (exponentField x : ℤ) - 1075, fractionField x = 0⟩ :=
  rfl

private theorem fractionField_lt (x : Float) : fractionField x < 2 ^ 52 :=
  Nat.mod_lt _ (by decide)

/-- What is held in the bits of a float is canonical. -/
theorem canonical_ofBits (x : Float) : (Binary.ofBits x.toBits).Canonical := by
  have hfraction := fractionField_lt x
  rw [ofBits_eq]
  split
  · refine ⟨?_, .inl rfl, ?_⟩
    · dsimp only
      omega
    · intro _ hexponent
      exact absurd hexponent (lt_irrefl _)
  · refine ⟨?_, ?_, ?_⟩
    · dsimp only
      omega
    · dsimp only
      omega
    · intro hmantissa _
      dsimp only at hmantissa ⊢
      rw [decide_eq_true_eq]
      omega

/-- A magnitude tells its fields. -/
theorem fields_eq_of_ofBits
    (hmantissa : (Binary.ofBits x.toBits).mantissa = (Binary.ofBits y.toBits).mantissa)
    (hexponent : (Binary.ofBits x.toBits).exponent = (Binary.ofBits y.toBits).exponent) :
    exponentField x = exponentField y ∧ fractionField x = fractionField y := by
  have hx := fractionField_lt x
  have hy := fractionField_lt y
  simp only [ofBits_eq] at hmantissa hexponent
  split_ifs at hmantissa hexponent <;> dsimp only at hmantissa hexponent <;> omega

/-- A number is told by its sign and the fields of its bits. -/
theorem eq_of_fields (hsign : signBit x = signBit y)
    (hexponent : exponentField x = exponentField y)
    (hfraction : fractionField x = fractionField y) : x = y := by
  have hbits : x.toBits = y.toBits := by
    rw [← UInt64.toNat_inj]
    have hx := x.toBits.toNat_lt
    have hy := y.toBits.toNat_lt
    simp only [signBit, Nat.testBit_eq_decide_div_mod_eq, decide_eq_decide] at hsign
    unfold exponentField at hexponent
    unfold fractionField at hfraction
    omega
  rcases x with ⟨bits, hbitsValid⟩
  rcases y with ⟨bits', hbitsValid'⟩
  cases hbits
  rfl

/-- The text of a finite number behind its sign. -/
def magnitudeText (x : Float) : List Char :=
  if x == 0 then ['0'] else (Binary.ofBits x.toBits).shortest.text

/-- The sign that a number is written with. -/
def signText (x : Float) : List Char :=
  if signBit x then ['-'] else []

/-- A finite number is written as its sign and its magnitude. -/
theorem toList_numberText (h : x.isFinite = true) :
    (numberText x).toList = signText x ++ magnitudeText x := by
  rw [isFinite_eq, Bool.and_eq_true, Bool.not_eq_true', Bool.not_eq_true'] at h
  unfold numberText signText magnitudeText
  rw [h.1, h.2]
  cases signBit x <;> cases x == 0 <;> simp

private theorem mantissa_pos (h : (x == 0) = false) : 0 < (Binary.ofBits x.toBits).mantissa := by
  have hne := mt beq_zero_iff.2 (ne_true_of_eq_false h)
  rw [ofBits_eq]
  split <;> dsimp only <;> omega

/-- The magnitude of a number is written as a number text. -/
theorem isNumber_magnitudeText (x : Float) : IsNumber (magnitudeText x) := by
  unfold magnitudeText
  cases hzero : x == 0 with
  | true => exact .whole isDigits_zero
  | false => exact isNumber_text (Binary.digits_shortest_pos (mantissa_pos hzero))

/-- The text of a magnitude denotes a decimal that rounds to it. -/
theorem covers_magnitudeText (x : Float) :
    (Binary.ofBits x.toBits).Covers (denoted (magnitudeText x)).value := by
  unfold magnitudeText
  cases hzero : x == 0 with
  | true =>
      have hself := (Binary.ofBits x.toBits).covers_self
      have hfields := beq_zero_iff.1 hzero
      rw [ofBits_eq, if_pos hfields.1, hfields.2] at hself ⊢
      have hvalue : (denoted ['0']).value = 0 := by
        rw [value_denoted_digits isDigits_zero]
        rfl
      simpa [hvalue] using hself
  | false =>
      rw [if_neg (by decide), value_text (Binary.digits_shortest_pos (mantissa_pos hzero))]
      exact (Binary.ofBits x.toBits).covers_shortest

/-- A sign is told from what stands behind it, because that starts with a digit. -/
theorem signText_append_inj {cs cs' : List Char} (hcs : IsNumber cs) (hcs' : IsNumber cs')
    (h : signText x ++ cs = signText y ++ cs') : signBit x = signBit y ∧ cs = cs' := by
  have hdash {ds ds' : List Char} (hds : IsNumber ds) (hd : '-' :: ds' = ds) : False := by
    rw [← hd] at hds
    exact absurd (isDigit_of_isNumber hds) (by decide)
  unfold signText at h
  cases hx : signBit x <;> cases hy : signBit y <;> rw [hx, hy] at h
  · exact ⟨rfl, h⟩
  · exact (hdash hcs h.symm).elim
  · exact (hdash hcs' h).elim
  · exact ⟨rfl, (List.cons.inj h).2⟩

/-- Finite numbers with the same text are the same. -/
theorem numberText_injective (hx : x.isFinite = true) (hy : y.isFinite = true)
    (h : numberText x = numberText y) : x = y := by
  have htext := congrArg String.toList h
  rw [toList_numberText hx, toList_numberText hy] at htext
  rcases signText_append_inj (isNumber_magnitudeText x) (isNumber_magnitudeText y) htext with
    ⟨hsign, hmagnitude⟩
  have hcovers := covers_magnitudeText y
  rw [← hmagnitude] at hcovers
  rcases (canonical_ofBits x).eq_of_covers (canonical_ofBits y) (covers_magnitudeText x)
    hcovers with ⟨hmantissa, hexponent⟩
  rcases fields_eq_of_ofBits hmantissa hexponent with ⟨hexponent, hfraction⟩
  exact eq_of_fields hsign hexponent hfraction

end ExprLang.Decimal
