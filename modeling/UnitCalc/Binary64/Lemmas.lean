import Mathlib
import UnitCalc.Binary64

/-!
# Rounding what is already representable

A magnitude that is a double is its own rounding, however it is written as a fraction
(`nearest_scaled`). The proof takes a rank apart into its exponent field and its significand, and
finds that rounding puts the same two together again.
-/

namespace UnitCalc

namespace Binary64

/-- The bit in front of the mantissa, as a power of two. -/
theorem leadingBit_eq : leadingBit = 2 ^ 52 := rfl

theorem leadingBit_pos : 0 < leadingBit := by decide

/-- A whole number of units is not moved by rounding. -/
theorem roundHalfEven_mul_right (n den : Nat) (h : 0 < den) : roundHalfEven (n * den) den = n := by
  simp [roundHalfEven, Nat.mul_div_cancel n h, h]

/-! ## The two parts of a rank -/

/-- Below the leading bit a rank is its own significand: the numbers there are subnormal. -/
theorem significand_of_lt {rank : Nat} (h : rank < leadingBit) : significand rank = rank := if_pos h

theorem exponent_of_lt {rank : Nat} (h : rank < leadingBit) : exponent rank = 0 := by
  rw [exponent, Nat.div_eq_of_lt h]

/-- From the leading bit on every significand has 53 binary digits. -/
theorem leadingBit_le_significand {rank : Nat} (h : ¬ rank < leadingBit) :
    leadingBit ≤ significand rank := by
  rw [significand, if_neg h]
  exact Nat.le_add_left _ _

/-- A significand has at most 53 bits. -/
theorem significand_lt (rank : Nat) : significand rank < 2 ^ 53 := by
  have hmod := Nat.mod_lt rank leadingBit_pos
  have hbit := leadingBit_eq
  unfold significand
  split <;> omega

/-- A rank is its exponent field and its significand, written together. -/
theorem exponent_mul_add_significand (rank : Nat) :
    exponent rank * leadingBit + significand rank = rank := by
  by_cases h : rank < leadingBit
  · rw [exponent_of_lt h, significand_of_lt h, Nat.zero_mul, Nat.zero_add]
  · have hdiv := Nat.div_add_mod rank leadingBit
    have hone : 1 ≤ rank / leadingBit := (Nat.one_le_div_iff leadingBit_pos).2 (by omega)
    have hfield : (rank / leadingBit - 1) * leadingBit + leadingBit
        = leadingBit * (rank / leadingBit) := by
      rw [← Nat.succ_mul, Nat.succ_eq_add_one, Nat.sub_add_cancel hone, Nat.mul_comm]
    rw [exponent, significand, if_neg h]
    omega

/-- The value of a rank as a product. -/
theorem scaled_eq (rank : Nat) : scaled rank = significand rank * 2 ^ exponent rank :=
  Nat.shiftLeft_eq ..

/-- The exponent can be read off the value: a significand above the first binade has 53 bits. -/
theorem log2_scaled_sub (rank : Nat) : (scaled rank).log2 - 52 = exponent rank := by
  by_cases h : rank < leadingBit
  -- a subnormal number has no more than 52 digits, and the difference is cut off at zero
  · rw [scaled_eq, exponent_of_lt h, significand_of_lt h, pow_zero, mul_one]
    by_cases h0 : rank = 0
    · subst h0
      rfl
    · have hlog := (Nat.log2_lt h0).2 (leadingBit_eq ▸ h)
      omega
  · -- the significand has 53 bits, and the scale shifts them all
    have hlow := leadingBit_le_significand h
    rw [leadingBit_eq] at hlow
    have hhigh := significand_lt rank
    have hscale := Nat.two_pow_pos (exponent rank)
    have hne : significand rank * 2 ^ exponent rank ≠ 0 :=
      Nat.ne_of_gt (Nat.mul_pos (by omega) hscale)
    have hlog : (significand rank * 2 ^ exponent rank).log2 = 52 + exponent rank := by
      rw [Nat.log2_eq_iff hne, show 52 + exponent rank + 1 = 53 + exponent rank by omega,
        Nat.pow_add, Nat.pow_add]
      exact ⟨Nat.mul_le_mul_right _ hlow, Nat.mul_lt_mul_of_pos_right hhigh hscale⟩
    rw [scaled_eq, hlog]
    omega

/-! ## Rounding -/

/-- The value of a rank, however it is written as a fraction, rounds to that rank. -/
theorem nearest_scaled {num den rank : Nat} (hden : 0 < den) (hrank : rank ≤ infinity)
    (h : num <<< precision = scaled rank * den) : nearest num den = rank := by
  have hdiv : scaled rank * den / den = scaled rank := Nat.mul_div_cancel _ hden
  have hround : roundHalfEven (scaled rank * den) (den <<< exponent rank) = significand rank := by
    rw [scaled_eq, Nat.shiftLeft_eq, mul_assoc, mul_comm (2 ^ exponent rank) den]
    exact roundHalfEven_mul_right _ _ (Nat.mul_pos hden (Nat.two_pow_pos _))
  simp only [nearest]
  rw [h, hdiv, log2_scaled_sub, hround, exponent_mul_add_significand]
  exact Nat.min_eq_right hrank

end Binary64

end UnitCalc
