import UnitCalc.Binary64

/-!
# Decimal numerals

A `Decimal` is a numeral of digits with an optional fraction, such as `12.50`: the number its
digits spell and how many of them stand behind the point. There is no sign and no exponent.

* `ofChars?` reads a numeral: ASCII digits with at most one point, at least one digit.
* `chars` writes one: a digit before the point, and a point only if places follow it.
-/

namespace UnitCalc

/-- A power of ten. -/
def tenPow (n : Nat) : Nat := Nat.pow 10 n

/-- The number `digits / tenPow places`. -/
structure Decimal where
  digits : Nat
  places : Nat
  deriving DecidableEq, Repr

namespace Decimal

/-- The rank of the double nearest to the number, ties to even. -/
def rank (d : Decimal) : Nat := Binary64.nearest d.digits (tenPow d.places)

/-- The number that a run of decimal digits spells. -/
def spelled (digits : List Char) : Nat := Nat.ofDigitChars 10 digits 0

/-- Reads a numeral. All of the text has to belong to it. -/
def ofChars? (text : List Char) : Option Decimal :=
  let whole := text.takeWhile Char.isDigit
  match text.dropWhile Char.isDigit with
  | [] => if whole.isEmpty then none else some ⟨spelled whole, 0⟩
  | c :: fraction =>
    if c = '.' && fraction.all Char.isDigit && !(whole ++ fraction).isEmpty then
      some ⟨spelled (whole ++ fraction), fraction.length⟩
    else none

/-- The digits of a number, with zeros in front up to the given width. -/
def padded (width n : Nat) : List Char := List.leftpad width '0' (Nat.toDigits 10 n)

/-- Writes a numeral: the whole part without leading zeros, then all its places. -/
def chars (d : Decimal) : List Char :=
  if d.places = 0 then Nat.toDigits 10 d.digits
  else
    Nat.toDigits 10 (d.digits / tenPow d.places) ++
      '.' :: padded d.places (d.digits % tenPow d.places)

end Decimal

end UnitCalc
