import UnitCalc.Binary64

/-!
# Elementary functions

The functions of one number that are not among the operations on doubles.

* Rounding functions bring a number to a nearby simpler one.
* Whole roots of naturals are found digit by digit, and the cube root of a double with them. A cube
  root is computed on a scaled argument to many more digits than a double has, and rounded once; so
  the result is the double nearest to the true root.
* The inverse hyperbolic functions are logarithms of algebraic expressions. They are computed in
  fixed point, a number standing for that many steps of `2 ^ (-1400)`, and rounded once at the end.
  The least double is `2 ^ (-1074)`, so more than three hundred binary digits lie behind the last
  one that a result can show, and the result is the double nearest to the true value.
-/

namespace UnitCalc

namespace Elementary

/-! ## Rounding -/

/-- The nearest whole number, a half going up. -/
def round (x : Float) : Float :=
  let floor := x.floor
  if 0.5 ≤ x - floor then floor + 1 else floor

/-- The number without its places. -/
def trunc (x : Float) : Float := if x < 0 then x.ceil else x.floor

/-- The nearest single-precision number. -/
def fround (x : Float) : Float := x.toFloat32.toFloat

/-- Minus one, zero or one; zeros and a NaN stay what they are. -/
def sign (x : Float) : Float :=
  if x == 0 || x.isNaN then x else if x < 0 then -1 else 1

/-! ## Roots -/

/-- The root of a number of at most `degree * digits` binary digits, found binary digit by binary
digit. -/
def rootDigits (degree : Nat) : Nat → Nat → Nat
  | 0, _ => 0
  | digits + 1, n =>
    let root := 2 * rootDigits degree digits (n >>> degree)
    if Nat.pow (root + 1) degree ≤ n then root + 1 else root

/-- The greatest whole number whose power of the given degree is at most `n`. -/
def floorRoot (degree n : Nat) : Nat := rootDigits degree (n.log2 / degree + 1) n

/-- The double with the given rank and the sign of `x`. -/
def withSignOf (x : Float) (rank : Nat) : Float :=
  if Binary64.isSigned x then -Binary64.toFloat rank else Binary64.toFloat rank

/--
The cube root. A finite magnitude is a whole number of steps of `2 ^ (-1074)`, and 1074 is three
times 358: the root of the whole number, taken to 200 more binary digits, is a root in steps of
`2 ^ (-558)`. Half a step is added if the root is not whole, which keeps it off the halfway points.
-/
def cubeRoot (x : Float) : Float :=
  let rank := Binary64.rankOf x
  if rank = 0 || Binary64.infinity ≤ rank then x
  else
    let cube := Binary64.scaled rank <<< 600
    let root := floorRoot 3 cube
    let inexact := if root * root * root = cube then 0 else 1
    withSignOf x (Binary64.nearest (2 * root + inexact) (1 <<< 559))

/-! ## Inverse hyperbolic functions -/

namespace FixedPoint

/-- How many binary digits stand behind the point. -/
def places : Nat := 1400

/-- The number one. -/
def one : Nat := 1 <<< places

/-- The product of two numbers. -/
def mul (a b : Nat) : Nat := (a * b) >>> places

/-- The quotient of two numbers. -/
def div (a b : Nat) : Nat := (a <<< places) / b

/-- The square root. -/
def sqrt (a : Nat) : Nat := floorRoot 2 (a <<< places)

/-- The magnitude of a finite rank, which fixed point represents exactly. -/
def ofRank (rank : Nat) : Nat := Binary64.scaled rank <<< (places - Binary64.precision)

/-- The terms `power / k + power * square / (k + 2) + ...`, as many as are asked for. -/
def oddSeries (square : Nat) : Nat → Nat → Nat → Nat
  | 0, _, _ => 0
  | terms + 1, k, power => power / k + oddSeries square terms (k + 2) (mul power square)

/-- The area hyperbolic tangent of a number up to one third, by its power series. Each term is at
most a ninth of the one before it, that is three binary digits and more shorter. -/
def artanh (z : Nat) : Nat := oddSeries (mul z z) (places / 3 + 1) 1 z

/-- The natural logarithm of two. -/
def logTwo : Nat := 2 * artanh (one / 3)

/-- The natural logarithm of a number that is at least one. The number is halved until it is below
two, and `log y = 2 * artanh ((y - 1) / (y + 1))` takes care of the rest. -/
def log (y : Nat) : Nat :=
  let halvings := y.log2 - places
  let unit := one <<< halvings
  halvings * logTwo + 2 * artanh (div (y - unit) (y + unit))

end FixedPoint

open FixedPoint

/-- The rank of the double one. -/
def rankOfOne : Nat := 0x3FF0000000000000

/-- What a function answers outside its domain. -/
def notANumber : Float := Float.ofBits 0x7FF8000000000000

/-- The area hyperbolic sine, `log (x + sqrt (x ^ 2 + 1))`, continued as an odd function. -/
def arsinh (x : Float) : Float :=
  let rank := Binary64.rankOf x
  if rank = 0 || Binary64.infinity ≤ rank then x
  else
    let a := ofRank rank
    withSignOf x (Binary64.nearest (log (a + FixedPoint.sqrt (mul a a + one))) one)

/-- The area hyperbolic cosine, `log (x + sqrt (x ^ 2 - 1))`, for numbers from one on. -/
def arcosh (x : Float) : Float :=
  let rank := Binary64.rankOf x
  if Binary64.isSigned x || rank < rankOfOne then notANumber
  else if Binary64.infinity ≤ rank then x
  else
    let a := ofRank rank
    Binary64.toFloat (Binary64.nearest (log (a + FixedPoint.sqrt (mul a a - one))) one)

/-- The area hyperbolic tangent, `log ((1 + x) / (1 - x)) / 2`, for numbers between minus one and
one; at these ends it is infinite. -/
def artanh (x : Float) : Float :=
  let rank := Binary64.rankOf x
  if rank = 0 then x
  else if rankOfOne < rank then notANumber
  else if rank = rankOfOne then withSignOf x Binary64.infinity
  else
    let a := ofRank rank
    withSignOf x (Binary64.nearest (log (div (one + a) (one - a))) (2 * one))

end Elementary

end UnitCalc
