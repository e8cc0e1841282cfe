import ExprLang.Decimal.Positional
import ExprLang.Decimal.Reading
import ExprLang.Proofs.Decimal.Rounding
import ExprLang.Proofs.Lexeme.Shape
import Mathlib.Data.List.TakeWhile

/-!
# Decimal notation

Digits with an optional point denote a decimal.  The positional form of a decimal is
digits with an optional point again, and it denotes the number of the decimal, wherever
the point falls.

Main results:

- Theorem `read?_of_isNumber`: such a text is read as the number nearest to the decimal
  that it denotes.
- Theorems `isNumber_text` and `value_text`: the positional form of a decimal is such a
  text, and denotes the same number.
-/

namespace ExprLang.Decimal

open Lexeme

variable {cs whole fraction digits : List Char} {s : String}

/-! ## Digits -/

private theorem digitsValue_append (start : ℕ) (xs ys : List Char) :
    digitsValue start (xs ++ ys) = digitsValue (digitsValue start xs) ys :=
  List.foldl_append

/-- Zeros behind digits shift them. -/
theorem digitsValue_zeros (start n : ℕ) :
    digitsValue start (List.replicate n '0') = 10 ^ n * start :=
  Nat.ofDigitChars_replicate_zero

@[simp]
theorem digitsValue_toDigits (n : ℕ) : digitsValue 0 (Nat.toDigits 10 n) = n :=
  Nat.ofDigitChars_ten_toDigits

private theorem isDigits_toDigits (n : ℕ) : IsDigits (Nat.toDigits 10 n) :=
  ⟨Nat.toDigits_ne_nil, fun _ hc => Nat.isDigit_of_mem_toDigits (by decide) (by decide) hc⟩

/-- A single zero is a run of digits. -/
theorem isDigits_zero : IsDigits ['0'] :=
  ⟨by simp, by simp⟩

private theorem isDigit_of_mem_zeros {n : ℕ} {c : Char} (h : c ∈ List.replicate n '0') :
    c.isDigit = true := by
  rw [List.eq_of_mem_replicate h]
  decide

private theorem isDigits_append_zeros (h : IsDigits digits) (n : ℕ) :
    IsDigits (digits ++ List.replicate n '0') := by
  refine ⟨by simp [h.1], ?_⟩
  intro c hc
  exact (List.mem_append.1 hc).elim (h.2 c) isDigit_of_mem_zeros

/-! ## Points -/

private theorem splitPoint_digits (h : IsDigits whole) : splitPoint whole = (whole, [], []) := by
  have htake : whole.takeWhile Char.isDigit = whole := List.takeWhile_eq_self_iff.2 h.2
  have hdrop : whole.dropWhile Char.isDigit = [] := List.dropWhile_eq_nil_iff.2 h.2
  simp [splitPoint, htake, hdrop]

/-- A text of digits is cut at its point. -/
theorem splitPoint_fraction (h : IsDigits whole) (hfraction : IsDigits fraction) :
    splitPoint (whole ++ '.' :: fraction) = (whole, fraction, []) := by
  have hend : EndsRun Char.isDigit ('.' :: fraction) := endsRun_cons.2 (by decide)
  have htake := takeWhile_eq_iff.2 ⟨_, rfl, h.2, hend⟩
  have hdrop := dropWhile_append_of_endsRun h.2 hend
  have htake' := List.takeWhile_eq_self_iff.2 hfraction.2
  have hdrop' := List.dropWhile_eq_nil_iff.2 hfraction.2
  simp only [splitPoint, htake, hdrop, htake', hdrop']

/-- The decimal that digits with an optional point denote. -/
def denoted (cs : List Char) : Scaled :=
  let (whole, fraction, _) := splitPoint cs
  ⟨digitsValue (digitsValue 0 whole) fraction, 0 - fraction.length⟩

/-- Digits without a point denote a whole number. -/
theorem value_denoted_digits (h : IsDigits whole) :
    (denoted whole).value = digitsValue 0 whole := by
  simp [denoted, splitPoint_digits h, Scaled.value, digitsValue]

/-- Digits behind a point count for as many places. -/
theorem value_denoted_fraction (h : IsDigits whole) (hfraction : IsDigits fraction) :
    (denoted (whole ++ '.' :: fraction)).value =
      digitsValue 0 (whole ++ fraction) * (10 : ℚ) ^ (-(fraction.length : ℤ)) := by
  simp [denoted, splitPoint_fraction h hfraction, Scaled.value, digitsValue_append]

/-- A number text is read as the float next to what it denotes. -/
theorem decimal?_of_isNumber (h : IsNumber cs) :
    decimal? cs = some (nearestFloat (denoted cs).digits (denoted cs).exponent) := by
  cases h with
  | whole hwhole => simp [decimal?, denoted, splitPoint_digits hwhole, hwhole.1]
  | fraction hwhole hfraction =>
      simp [decimal?, denoted, splitPoint_fraction hwhole hfraction, hwhole.1]

/-- Digits, alone or with a fraction, denote a number. -/
theorem read?_of_isNumber (h : IsNumber s.toList) :
    read? s = some (nearestFloat (denoted s.toList).digits (denoted s.toList).exponent) := by
  unfold read?
  split
  · rename_i hsign
    rw [hsign] at h
    exact absurd (isDigit_of_isNumber h) (by decide)
  · rename_i hsign
    rw [hsign] at h
    exact absurd (isDigit_of_isNumber h) (by decide)
  · rw [unsigned?, decimal?_of_isNumber h, Option.orElse_eq_orElse, Option.orElse_some]

/-! ## The positional form -/

/-- The positional form of digits has zeros behind them up to the point, or it has a
point, with zeros before the digits if need be. -/
theorem positional_cases (h : IsDigits digits) (point : ℤ) :
    (∃ n : ℕ, positional digits point = digits ++ List.replicate n '0' ∧
        point = digits.length + n) ∨
      ∃ whole fraction, positional digits point = whole ++ '.' :: fraction ∧
        IsDigits whole ∧ IsDigits fraction ∧
        digitsValue 0 (whole ++ fraction) = digitsValue 0 digits ∧
        (fraction.length : ℤ) = digits.length - point := by
  unfold positional
  dsimp only
  by_cases hleft : point ≤ 0
  · rw [if_pos hleft]
    refine .inr ⟨['0'], List.replicate (-point).toNat '0' ++ digits, by simp,
      isDigits_zero, ⟨by simp [h.1], ?_⟩, ?_, ?_⟩
    · intro c hc
      exact (List.mem_append.1 hc).elim isDigit_of_mem_zeros (h.2 c)
    · have hzeros : ['0'] = List.replicate 1 '0' := rfl
      rw [hzeros, digitsValue_append, digitsValue_append, digitsValue_zeros,
        digitsValue_zeros, Nat.mul_zero, Nat.mul_zero]
    · rw [List.length_append, List.length_replicate]
      omega
  · rw [if_neg hleft]
    by_cases hright : digits.length ≤ point.toNat
    · rw [if_pos hright]
      exact .inl ⟨point.toNat - digits.length, rfl, by omega⟩
    · rw [if_neg hright]
      refine .inr ⟨digits.take point.toNat, digits.drop point.toNat, rfl, ⟨?_, ?_⟩, ⟨?_, ?_⟩,
        ?_, ?_⟩
      · rw [ne_eq, List.take_eq_nil_iff, not_or]
        exact ⟨by omega, h.1⟩
      · exact fun c hc => h.2 c (List.mem_of_mem_take hc)
      · rw [ne_eq, List.drop_eq_nil_iff]
        exact hright
      · exact fun c hc => h.2 c (List.mem_of_mem_drop hc)
      · rw [List.take_append_drop]
      · rw [List.length_drop]
        omega

/-- What is written in positional notation is a number text. -/
theorem isNumber_positional (h : IsDigits digits) (point : ℤ) :
    IsNumber (positional digits point) := by
  rcases positional_cases h point with ⟨n, htext, -⟩ | ⟨_, _, htext, hwhole, hfraction, -⟩
  · rw [htext]
    exact .whole (isDigits_append_zeros h n)
  · rw [htext]
    exact .fraction hwhole hfraction

/-- The digits stand for the same number wherever the point falls. -/
theorem value_denoted_positional (h : IsDigits digits) (point : ℤ) :
    (denoted (positional digits point)).value =
      digitsValue 0 digits * (10 : ℚ) ^ (point - digits.length) := by
  rcases positional_cases h point with
    ⟨n, htext, rfl⟩ | ⟨_, _, htext, hwhole, hfraction, hvalue, hlength⟩
  · rw [htext, value_denoted_digits (isDigits_append_zeros h n), digitsValue_append,
      digitsValue_zeros, add_sub_cancel_left, zpow_natCast]
    push_cast
    ring
  · rw [htext, value_denoted_fraction hwhole hfraction, hvalue, hlength, neg_sub]

/-- Zeros at the end of digits are cut off. -/
theorem exists_zeros (digits : List Char) :
    ∃ n, digits =
      (digits.reverse.dropWhile (· == '0')).reverse ++ List.replicate n '0' := by
  have hzeros : digits.reverse.takeWhile (· == '0') =
      List.replicate (digits.reverse.takeWhile (· == '0')).length '0' := by
    rw [List.eq_replicate_iff]
    exact ⟨rfl, fun c hc => by simpa using List.mem_takeWhile_imp hc⟩
  have hsplit := congrArg List.reverse
    (List.takeWhile_append_dropWhile (p := (· == '0')) (l := digits.reverse))
  rw [hzeros, List.reverse_append, List.reverse_replicate, List.reverse_reverse] at hsplit
  exact ⟨_, hsplit.symm⟩

/-- The digits that the form of a positive decimal shows, and the zeros that it leaves
out. -/
theorem exists_significant (d : Scaled) (h : 0 < d.digits) :
    ∃ (significant : List Char) (n : ℕ), IsDigits significant ∧
      d.digits = digitsValue 0 significant * 10 ^ n ∧
      d.text = positional significant (d.exponent + significant.length + n) := by
  rcases exists_zeros (Nat.toDigits 10 d.digits) with ⟨n, hdigits⟩
  unfold Scaled.text
  dsimp only
  generalize ((Nat.toDigits 10 d.digits).reverse.dropWhile (· == '0')).reverse =
    significant at hdigits ⊢
  have hvalue : d.digits = digitsValue 0 significant * 10 ^ n := by
    rw [Nat.mul_comm, ← digitsValue_zeros, ← digitsValue_append, ← hdigits,
      digitsValue_toDigits]
  refine ⟨significant, n, ⟨?_, ?_⟩, hvalue, ?_⟩
  · rintro rfl
    rw [digitsValue, List.foldl_nil, Nat.zero_mul] at hvalue
    omega
  · intro c hc
    refine (isDigits_toDigits d.digits).2 c ?_
    rw [hdigits]
    exact List.mem_append_left _ hc
  · rw [hdigits, List.length_append, List.length_replicate]
    push_cast
    rw [add_assoc]

/-- A positive decimal is written as digits with an optional point. -/
theorem isNumber_text {d : Scaled} (h : 0 < d.digits) : IsNumber d.text := by
  rcases exists_significant d h with ⟨significant, n, hdigits, -, htext⟩
  rw [htext]
  exact isNumber_positional hdigits _

/-- The text of a decimal denotes the number that the decimal stands for. -/
theorem value_text {d : Scaled} (h : 0 < d.digits) : (denoted d.text).value = d.value := by
  rcases exists_significant d h with ⟨significant, n, hdigits, hvalue, htext⟩
  have hexponent : d.exponent + significant.length + n - significant.length =
      d.exponent + n := by
    omega
  rw [htext, value_denoted_positional hdigits, hexponent, Scaled.value, hvalue,
    zpow_add₀ (by norm_num), zpow_natCast]
  push_cast
  ring

end ExprLang.Decimal
