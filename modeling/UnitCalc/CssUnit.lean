/-!
# Units

The thirteen units a number may carry. A unit is written as a suffix of the number, and the
suffixes tell the units apart (`CssUnit.ofSuffix?_suffix`).
-/

namespace UnitCalc

/-- A length or percentage unit. -/
inductive CssUnit where
  | px | em | rem | percent | vh | vw | vmin | vmax | cm | mm | inch | pt | pc
  deriving DecidableEq, Repr

namespace CssUnit

/-- Every unit, in the order in which they are numbered. -/
def all : List CssUnit := [px, em, rem, percent, vh, vw, vmin, vmax, cm, mm, inch, pt, pc]

/-- How the unit is written behind a number. -/
def suffix : CssUnit → String
  | px => "px"
  | em => "em"
  | rem => "rem"
  | percent => "%"
  | vh => "vh"
  | vw => "vw"
  | vmin => "vmin"
  | vmax => "vmax"
  | cm => "cm"
  | mm => "mm"
  | inch => "in"
  | pt => "pt"
  | pc => "pc"

/-- The unit written with the given suffix. Case matters. -/
def ofSuffix? (text : String) : Option CssUnit := all.find? fun unit => unit.suffix == text

/-- The unit of an operand as diagnostics name it. -/
def label : Option CssUnit → String
  | some unit => unit.suffix
  | none => "unitless"

theorem ofSuffix?_suffix (unit : CssUnit) : ofSuffix? unit.suffix = some unit := by
  cases unit <;> rfl

/-- A unit is found by nothing but its suffix. -/
theorem suffix_of_ofSuffix? {text : String} {unit : CssUnit} (h : ofSuffix? text = some unit) :
    unit.suffix = text := by
  simpa using List.find?_some h

end CssUnit

end UnitCalc
