import Mathlib
import UnitCalc.Binary64

/-!
# Doubles and their ranks

A double that is a number is its rank with a sign. The three fields of the bits, read as naturals,
say what each half of this means:

* `isFinite_iff`: a double is finite if its rank is below that of infinity.
* `toFloat_rankOf`: without the sign bit, a double is that of its rank.
* `neg_toFloat_rankOf`: with the sign bit, a finite double is the negative of that of its rank.
* `toBits_toFloat`: the bits of the double of a rank are that rank, so there is no sign bit.
* `zero_le_toFloat`, `isNaN_toFloat`: the double of a rank is a number, and no negative one.
-/

namespace UnitCalc

namespace Binary64

open Float.Model (Format UnpackedFloat)
open Float.Model.UnpackedFloat

/-! ## The fields -/

section Fields

variable {a b : BitVec Format.binary64.numBits}

theorem toNat_unpackMantissa (b : BitVec Format.binary64.numBits) :
    (unpackMantissa b).toNat = b.toNat % 2 ^ 52 := by
  rw [unpackMantissa_def, BitVec.extractLsb'_toNat, Nat.shiftRight_zero]

theorem toNat_unpackExponent (b : BitVec Format.binary64.numBits) :
    (unpackExponent b).toNat = b.toNat / 2 ^ 52 % 2 ^ 11 := by
  rw [unpackExponent_def, BitVec.extractLsb'_toNat, Nat.shiftRight_eq_div_pow]

theorem toNat_unpackSign (b : BitVec Format.binary64.numBits) :
    (unpackSign b).toNat = b.toNat / 2 ^ 63 % 2 ^ 1 := by
  have hplace : Format.binary64.mantissaBitsWithoutImplicit + Format.binary64.exponentBits = 63 :=
    rfl
  rw [unpackSign_def, BitVec.extractLsb'_toNat, Nat.shiftRight_eq_div_pow, hplace]

/-- Only infinity and what lies above it has the greatest exponent. -/
theorem unpackExponent_eq_iff : unpackExponent b = -1#11 ↔ infinity ≤ b.toNat % signBit := by
  have hones : (-1#11).toNat = 2047 := rfl
  rw [← BitVec.toNat_inj, toNat_unpackExponent, hones, infinity, signBit]
  omega

/-- A double is finite if what is left without the sign bit lies below infinity. This is the
comparison that `rankOf` is made for. -/
theorem isFinite_unpack :
    (UnpackedFloat.unpack Format.binary64 b).isFinite = true ↔ b.toNat % signBit < infinity := by
  rw [← Nat.not_le, ← unpackExponent_eq_iff]
  unfold UnpackedFloat.unpack
  dsimp only
  split
  -- the greatest exponent: infinity or NaN, and neither is finite
  · rename_i hexponent
    simp only [hexponent, not_true_eq_false, iff_false]
    split <;> simp [UnpackedFloat.isFinite]
  · rename_i hexponent
    simp only [hexponent, not_false_eq_true, iff_true]
    split
    · split <;> rfl
    · rfl

/-- The greatest exponent without a mantissa is infinity. -/
theorem unpackMantissa_eq_zero (hb : b.toNat ≤ infinity) (hexponent : unpackExponent b = -1#11) :
    unpackMantissa b = 0#52 := by
  have hzero : (0#52).toNat = 0 := rfl
  have hlow := unpackExponent_eq_iff.1 hexponent
  rw [← BitVec.toNat_inj, toNat_unpackMantissa, hzero]
  rw [signBit, infinity] at hlow
  rw [infinity] at hb
  omega

/-- Bits up to infinity are those of a number, so packing and unpacking keeps them: the patterns
that are not kept are the NaNs other than the canonical one. -/
theorem valid_of_le (hb : b.toNat ≤ infinity) : Format.binary64.Valid b :=
  ⟨fun hexponent hmantissa => absurd (unpackMantissa_eq_zero hb hexponent) hmantissa⟩

/-- Up to infinity there is no sign bit and no NaN, so nothing is below zero. -/
theorem zero_le_unpack (hb : b.toNat ≤ infinity) :
    (UnpackedFloat.zero .positive).le (UnpackedFloat.unpack Format.binary64 b) = true ∧
      (UnpackedFloat.unpack Format.binary64 b).isNaN = false := by
  -- the fields are read off first; what is left is one case per kind of double
  have hsign : unpackSign b = 0#1 := by
    have hzero : (0#1).toNat = 0 := rfl
    rw [← BitVec.toNat_inj, toNat_unpackSign, hzero]
    rw [infinity] at hb
    omega
  have hplus : Sign.ofBitVec (0#1) = .positive := rfl
  unfold UnpackedFloat.unpack
  simp only [hsign, hplus]
  split
  · rename_i hexponent
    rw [if_pos (unpackMantissa_eq_zero hb hexponent)]
    exact ⟨rfl, rfl⟩
  · split
    · split <;> exact ⟨rfl, rfl⟩
    · exact ⟨rfl, rfl⟩

/-- Setting the sign bit negates. -/
theorem neg_unpack (ha : a.toNat < signBit) (hb : b.toNat = signBit + a.toNat) :
    (UnpackedFloat.unpack Format.binary64 a).neg = UnpackedFloat.unpack Format.binary64 b := by
  rw [signBit] at ha hb
  -- `b` has the mantissa and the exponent of `a`, and the other sign
  have hmantissa : unpackMantissa b = unpackMantissa a := by
    rw [← BitVec.toNat_inj, toNat_unpackMantissa, toNat_unpackMantissa]
    omega
  have hexponent : unpackExponent b = unpackExponent a := by
    rw [← BitVec.toNat_inj, toNat_unpackExponent, toNat_unpackExponent]
    omega
  have hplus : unpackSign a = 0#1 := by
    have hzero : (0#1).toNat = 0 := rfl
    rw [← BitVec.toNat_inj, toNat_unpackSign, hzero]
    omega
  have hminus : unpackSign b = 1#1 := by
    have hone : (1#1).toNat = 1 := rfl
    rw [← BitVec.toNat_inj, toNat_unpackSign, hone]
    omega
  -- so both unpack along the same branches, with opposite signs
  unfold UnpackedFloat.unpack
  simp only [hmantissa, hexponent, hplus, hminus]
  split
  · split <;> rfl
  · split
    · split <;> rfl
    · rfl

end Fields

/-! ## Doubles -/

section Doubles

variable {x : Float}

theorem isFinite_iff : x.isFinite = true ↔ rankOf x < infinity := isFinite_unpack

theorem toFloat_rankOf (hsign : isSigned x = false) : toFloat (rankOf x) = x := by
  have hlow : x.toBits.toNat < signBit := by simpa [isSigned] using hsign
  rw [toFloat, rankOf, Nat.mod_eq_of_lt hlow, UInt64.ofNat_toNat, Float.ofBits_toBits]

/-! The bits of a rank are the rank itself. -/

/-- A rank fits into 64 bits with room to spare. -/
theorem toNat_bits {rank : Nat} (hrank : rank ≤ infinity) :
    (UInt64.ofNat rank).toBitVec.toNat = rank := by
  show rank % 2 ^ 64 = rank
  rw [infinity] at hrank
  omega

theorem valid_bits {rank : Nat} (hrank : rank ≤ infinity) :
    Format.binary64.Valid (UInt64.ofNat rank).toBitVec :=
  valid_of_le ((toNat_bits hrank).trans_le hrank)

/-- Unpacking the double of a rank is unpacking the rank: making the double has lost no bit. -/
theorem unpack_toFloat {rank : Nat} (hrank : rank ≤ infinity) :
    (toFloat rank).toModel.unpack =
      UnpackedFloat.unpack Format.binary64 (UInt64.ofNat rank).toBitVec := by
  show UnpackedFloat.unpack _ (UnpackedFloat.pack _ (UnpackedFloat.unpack _ _)) = _
  rw [pack_unpack_of_valid (valid_bits hrank)]

/-- A finite double with the sign bit is the negative of the double of its rank. -/
theorem neg_toFloat_rankOf (hsign : isSigned x = true) (hfinite : rankOf x < infinity) :
    -(toFloat (rankOf x)) = x := by
  have hhigh : signBit ≤ x.toBits.toNat := by simpa [isSigned] using hsign
  have hbound : x.toBits.toNat < 2 ^ 64 := x.toBits.toNat_lt
  -- `a` are the bits of the rank, `b` those of the double itself
  let a : BitVec Format.binary64.numBits := (UInt64.ofNat (rankOf x)).toBitVec
  let b : BitVec Format.binary64.numBits := x.toBits.toBitVec
  have hrank : rankOf x = x.toBits.toNat - signBit := by
    rw [rankOf]
    rw [signBit] at hhigh ⊢
    omega
  have ha : a.toNat = rankOf x := toNat_bits (Nat.le_of_lt hfinite)
  have hb : b.toNat = signBit + a.toNat := by
    show x.toBits.toNat = _
    omega
  have hlow : a.toNat < signBit := by
    rw [ha]
    exact Nat.mod_lt _ (by decide)
  calc -(toFloat (rankOf x))
      = .ofModel (Float.Model.pack (toFloat (rankOf x)).toModel.unpack.neg) := rfl
    _ = .ofModel (Float.Model.pack (UnpackedFloat.unpack Format.binary64 b)) := by
      rw [unpack_toFloat (Nat.le_of_lt hfinite), neg_unpack hlow hb]
    _ = Float.ofBits x.toBits := rfl
    _ = x := Float.ofBits_toBits x

/-- Up to infinity there is no NaN among the bit patterns, and every other one is kept. -/
theorem toBits_toFloat {rank : Nat} (hrank : rank ≤ infinity) :
    (toFloat rank).toBits = UInt64.ofNat rank := by
  show UInt64.ofBitVec (UnpackedFloat.pack Format.binary64 (UnpackedFloat.unpack _ _)) = _
  rw [pack_unpack_of_valid (valid_bits hrank)]

theorem zero_le_toFloat {rank : Nat} (hrank : rank ≤ infinity) : 0 ≤ toFloat rank := by
  have hunpack := (zero_le_unpack ((toNat_bits hrank).trans_le hrank)).1
  show decide ((0 : Float).toModel.unpack.le (toFloat rank).toModel.unpack = true) = true
  rw [unpack_toFloat hrank, decide_eq_true_eq]
  exact hunpack

theorem isNaN_toFloat {rank : Nat} (hrank : rank ≤ infinity) : (toFloat rank).isNaN = false := by
  have hunpack := (zero_le_unpack ((toNat_bits hrank).trans_le hrank)).2
  show (toFloat rank).toModel.unpack.isNaN = false
  rw [unpack_toFloat hrank]
  exact hunpack

theorem isSigned_toFloat {rank : Nat} (hrank : rank ≤ infinity) :
    isSigned (toFloat rank) = false := by
  rw [isSigned, toBits_toFloat hrank, UInt64.toNat_ofNat', decide_eq_false_iff_not, signBit]
  rw [infinity] at hrank
  omega

end Doubles

end Binary64

end UnitCalc
