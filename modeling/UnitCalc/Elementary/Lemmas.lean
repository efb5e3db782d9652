import Mathlib
import UnitCalc.Elementary

/-!
# Whole roots

`floorRoot_spec`: the whole root is the last number whose power is not too large. The root gains
one binary digit for every `degree` digits of its argument, and the invariant of that step is the
statement itself.
-/

namespace UnitCalc

namespace Elementary

/-- With enough digits, the root is the last number whose power is not too large. -/
theorem rootDigits_spec {degree : Nat} (hd : 0 < degree) (digits n : Nat)
    (h : n < 2 ^ (degree * digits)) :
    rootDigits degree digits n ^ degree ≤ n ∧ n < (rootDigits degree digits n + 1) ^ degree := by
  induction digits generalizing n with
  | zero =>
    have hn : n = 0 := by simpa using h
    simp [rootDigits, hn, Nat.zero_pow hd]
  | succ digits ih =>
    have hshift : n >>> degree = n / 2 ^ degree := Nat.shiftRight_eq_div_pow n degree
    have hpow : 0 < 2 ^ degree := Nat.two_pow_pos _
    -- the leading digits of the argument are below the smaller power, so the root so far is right
    obtain ⟨hle, hlt⟩ := ih (n >>> degree) (by
      rw [hshift, Nat.div_lt_iff_lt_mul hpow, ← pow_add]
      exact h)
    rw [hshift] at hle hlt
    -- the new digit is worth one: twice the root so far is not too large, and two more is
    have hlow : (2 * rootDigits degree digits (n / 2 ^ degree)) ^ degree ≤ n := by
      rw [mul_pow]
      exact le_trans (Nat.mul_le_mul_left _ hle) (Nat.mul_div_le n _)
    have hhigh : n < (2 * rootDigits degree digits (n / 2 ^ degree) + 2) ^ degree := by
      rw [show 2 * rootDigits degree digits (n / 2 ^ degree) + 2
        = 2 * (rootDigits degree digits (n / 2 ^ degree) + 1) by omega, mul_pow, mul_comm]
      exact (Nat.div_lt_iff_lt_mul hpow).1 hlt
    rw [rootDigits, hshift]
    split
    · exact ⟨by assumption, hhigh⟩
    · rename_i hnot
      exact ⟨hlow, Nat.lt_of_not_le hnot⟩

/-- A number of `log2 / degree + 1` root digits is always long enough. -/
theorem floorRoot_spec {degree : Nat} (hd : 0 < degree) (n : Nat) :
    floorRoot degree n ^ degree ≤ n ∧ n < (floorRoot degree n + 1) ^ degree := by
  refine rootDigits_spec hd _ n ?_
  by_cases hn : n = 0
  · subst hn
    exact Nat.two_pow_pos _
  · refine lt_of_lt_of_le (Nat.lt_log2_self (n := n)) (Nat.pow_le_pow_right (by decide) ?_)
    have := Nat.lt_mul_div_succ n.log2 hd
    omega

end Elementary

end UnitCalc
