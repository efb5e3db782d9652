/-!
# Magnitudes of double-precision numbers

The non-negative doubles, infinity included, are the naturals up to `Binary64.infinity` in
increasing order: the *rank* of a magnitude is its place in that order, and it is also the bit
pattern of the double. The least positive double is `2 ^ (-1074)` and all finite ones are multiples
of it: a finite rank stands for `scaled rank` steps of that size.

Everything the calculator reads, prints or computes exactly is rounded by `nearest` and nowhere
else.
-/

namespace UnitCalc

namespace Binary64

/-- The number of binary places of the finest step. -/
def precision : Nat := 1074

/-- The weight of the leading bit of a normal significand, `2 ^ 52`. The exponent field of a rank
counts multiples of it. -/
def leadingBit : Nat := 0x0010000000000000

/-- The rank of infinity, one past the greatest finite magnitude. -/
def infinity : Nat := 0x7FF0000000000000

/-- The weight of the sign bit, above all ranks. -/
def signBit : Nat := 0x8000000000000000

/-- The whole number `m` in the value of a finite rank, which is `m <<< exponent rank` steps. -/
def significand (rank : Nat) : Nat :=
  if rank < leadingBit then rank else rank % leadingBit + leadingBit

/-- By how many binary digits the significand of a finite rank is shifted. -/
def exponent (rank : Nat) : Nat := rank / leadingBit - 1

/-- The value of a finite rank, counted in the finest steps. -/
def scaled (rank : Nat) : Nat := significand rank <<< exponent rank

/-- The whole number nearest to `num / den`; of two equally near ones, the even one. -/
def roundHalfEven (num den : Nat) : Nat :=
  let whole := num / den
  let rest := num % den
  if 2 * rest < den then whole
  else if den < 2 * rest then whole + 1
  else whole + whole % 2

/--
The rank of the magnitude nearest to `num / den`, ties to even; infinity if `num / den` is too
large. The quotient is measured in the finest steps and rounded to a significand of at most 53
bits. A significand rounded up to 54 bits carries into the exponent field of the rank, which is
where it belongs.
-/
def nearest (num den : Nat) : Nat :=
  let steps := num <<< precision
  let shift := (steps / den).log2 - 52
  min infinity (shift * leadingBit + roundHalfEven steps (den <<< shift))

/-- The double of a rank. -/
def toFloat (rank : Nat) : Float := Float.ofBits (UInt64.ofNat rank)

/-- The rank of the absolute value of a double; for a NaN, a number above `infinity`. -/
def rankOf (x : Float) : Nat := x.toBits.toNat % signBit

/-- Whether the sign bit of a double is set. -/
def isSigned (x : Float) : Bool := signBit ≤ x.toBits.toNat

end Binary64

end UnitCalc
