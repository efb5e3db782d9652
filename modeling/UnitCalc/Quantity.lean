import UnitCalc.Decimal.Shortest
import UnitCalc.Fault

/-!
# Quantities and operators

A quantity is a number with at most one unit. The arithmetic on quantities is the arithmetic of
doubles on the magnitudes, guarded by the rules for units:

* sums and differences need equal units, or none on both sides, and keep them;
* a product takes the unit of the factor that has one, and at most one may;
* a quotient keeps the unit of its left side if the right side has none, and equal units cancel;
* powers are for numbers without units.

A quotient in which units cancelled is marked as a *ratio*. The mark decides only how the final
result is shown: every operation makes its result afresh, so no mark outlives the next operation.

The five operators stand for five of these operations. Lexemes, expressions and the grammar share
them.
-/

namespace UnitCalc

/-- A magnitude with at most one unit. -/
structure Quantity where
  magnitude : Float
  unit : Option CssUnit
  /-- Whether this is a quotient in which two equal units cancelled. -/
  ratio : Bool := false
  deriving DecidableEq

namespace Quantity

/-- The text of a quantity: its magnitude, directly followed by its unit. -/
def text (q : Quantity) : String :=
  numberText q.magnitude ++ (q.unit.map CssUnit.suffix).getD ""

/-! ## Reading -/

/-- Whether a character belongs to the numeral in front of a unit. -/
def isNumeral (c : Char) : Bool := c.isDigit || c = '.'

/-- Reads a literal: a numeral, followed by nothing or by one unit. -/
def ofChars? (text : List Char) : Option Quantity := do
  let number ← Decimal.ofChars? (text.takeWhile isNumeral)
  let magnitude := Binary64.toFloat number.rank
  match text.dropWhile isNumeral with
  | [] => some ⟨magnitude, none, false⟩
  | suffix =>
      (CssUnit.ofSuffix? (String.ofList suffix)).map fun unit => ⟨magnitude, some unit, false⟩

/-- Reads a literal; anything else is a malformed number. -/
def ofText (text : String) : Except Fault Quantity :=
  match ofChars? text.toList with
  | some q => .ok q
  | none => .error (.malformedNumber text)

/-! ## Arithmetic -/

/-- The opposite quantity. -/
def neg (q : Quantity) : Quantity := ⟨-q.magnitude, q.unit, false⟩

/-- The sum, if the units are equal or there are none. -/
def add (a b : Quantity) : Except Fault Quantity :=
  if a.unit = b.unit then .ok ⟨a.magnitude + b.magnitude, a.unit, false⟩
  else .error (.unitMismatch "add" a.unit b.unit)

/-- The difference, if the units are equal or there are none. -/
def sub (a b : Quantity) : Except Fault Quantity :=
  if a.unit = b.unit then .ok ⟨a.magnitude - b.magnitude, a.unit, false⟩
  else .error (.unitMismatch "subtract" a.unit b.unit)

/-- The product, if at most one side has a unit. -/
def mul (a b : Quantity) : Except Fault Quantity :=
  match a.unit, b.unit with
  | some _, some _ => .error (.multiplyUnits a.unit b.unit)
  | some unit, none | none, some unit => .ok ⟨a.magnitude * b.magnitude, some unit, false⟩
  | none, none => .ok ⟨a.magnitude * b.magnitude, none, false⟩

/-- The quotient. Equal units cancel and leave a ratio. -/
def div (a b : Quantity) : Except Fault Quantity :=
  match b.unit with
  | none => .ok ⟨a.magnitude / b.magnitude, a.unit, false⟩
  | some _ =>
    -- the mark tells a quotient of lengths from a plain number
    if a.unit = b.unit then .ok ⟨a.magnitude / b.magnitude, none, true⟩
    else .error (.divideUnits a.unit b.unit)

/-- The power of numbers without units. -/
def pow (a b : Quantity) : Except Fault Quantity :=
  match a.unit, b.unit with
  | none, none => .ok ⟨Float.pow a.magnitude b.magnitude, none, false⟩
  | _, _ => .error .powerUnits

end Quantity

/-! ## Operators -/

/-- The operators of arithmetic. -/
inductive Operator where
  | add | subtract | multiply | divide | power
  deriving DecidableEq, Repr

/-- The sign of the operator, as it is read and written. -/
def Operator.symbol : Operator → Char
  | add => '+'
  | subtract => '-'
  | multiply => '*'
  | divide => '/'
  | power => '^'

/-- The quantity an operator makes of two operands. -/
def Operator.apply : Operator → Quantity → Quantity → Except Fault Quantity
  | add => Quantity.add
  | subtract => Quantity.sub
  | multiply => Quantity.mul
  | divide => Quantity.div
  | power => Quantity.pow

end UnitCalc
