import UnitCalc.Decimal

/-!
# The shortest numeral of a double

A magnitude is written with the fewest digits that read back to it. The decimals with at most so
many digits form a grid of points one power of ten apart; the grids are tried from coarse to fine,
and on each only the two neighbours of the magnitude can be the answer. The last grid has as many
places as the finest double has binary ones and holds every finite double exactly, so the search
always ends with a numeral that reads back.

`numberText` is the text of any double, signs, zeros and non-numbers included.
-/

namespace UnitCalc

/-- A grid of decimals, the multiples of `tenPow zeros / tenPow places`. -/
structure DecimalGrid where
  zeros : Nat
  places : Nat
  deriving DecidableEq, Repr

namespace DecimalGrid

/-- The point number `k` of a grid. -/
def point (g : DecimalGrid) (k : Nat) : Decimal := ⟨k * tenPow g.zeros, g.places⟩

/--
The point of the grid that reads back to the given magnitude, if there is one. Of the two
neighbours of the magnitude the nearer is preferred, and the upper one if both are equally near.
-/
def hit? (g : DecimalGrid) (rank : Nat) : Option Decimal :=
  let value := Binary64.scaled rank * tenPow g.places
  let step := tenPow g.zeros <<< Binary64.precision
  let below := value / step
  let low := g.point below
  let high := g.point (below + 1)
  if 2 * value < (2 * below + 1) * step && low.rank == rank then some low
  else if high.rank == rank then some high
  else if low.rank == rank then some low
  else none

/-- The grids on which a magnitude with the given whole part can have its shortest numeral, from
coarse to fine. The first step is wider than the magnitude itself. -/
def candidates (whole : Nat) : List DecimalGrid :=
  (List.range (whole.log2 / 3 + 2)).reverse.map (⟨·, 0⟩) ++
    (List.range Binary64.precision).map (⟨0, · + 1⟩)

end DecimalGrid

namespace Decimal

/-- The numeral of a finite magnitude that spells out all its places. -/
def exact (rank : Nat) : Decimal :=
  ⟨Binary64.scaled rank * Nat.pow 5 Binary64.precision, Binary64.precision⟩

/-- The numeral with the fewest digits that reads back to a finite magnitude, and of these the
nearest one. -/
def shortest (rank : Nat) : Decimal :=
  let whole := Binary64.scaled rank >>> Binary64.precision
  ((DecimalGrid.candidates whole).findSome? (·.hit? rank)).getD (exact rank)

end Decimal

/--
The text of a number: its shortest numeral, without an exponent and with a minus sign if it is
negative. Both zeros are written `0`.
-/
def numberText (x : Float) : String :=
  let rank := Binary64.rankOf x
  let sign := if Binary64.isSigned x then "-" else ""
  if Binary64.infinity < rank then "NaN"
  else if rank = Binary64.infinity then sign ++ "Infinity"
  else if rank = 0 then "0"
  else sign ++ String.ofList (Decimal.shortest rank).chars

end UnitCalc
