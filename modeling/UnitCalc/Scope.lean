import UnitCalc.Elementary

/-!
# Scopes

A scope says what a name means: a constant, a function of one number, or nothing. The expression
language knows scopes only through this question, so any function from names to meanings will do.

`Scope.math` is the scope of the usual constants and functions of mathematics. A function of
several arguments appears there with what it does to one: `max` and `min` answer their argument,
`hypot` its absolute value.
-/

namespace UnitCalc

/-- A function of one number. -/
structure UnaryFunction where
  apply : Float → Float
  /-- Whether the result carries the unit of the argument; otherwise it carries none. -/
  keepsUnit : Bool := false

/-- What a name means. -/
inductive Binding where
  | constant (value : Float)
  | function (f : UnaryFunction)

/-- The meaning of every name that has one. -/
abbrev Scope := String → Option Binding

namespace Scope

/-- The scope of a list of entries. Of several entries for one name the last one counts. -/
def ofEntries (entries : List (String × Binding)) : Scope := fun name =>
  (entries.reverse.find? fun entry => entry.1 == name).map Prod.snd

/-- The constants and functions of `math`. -/
def mathEntries : List (String × Binding) :=
  [ ("PI", .constant 3.141592653589793),
    ("E", .constant 2.718281828459045),
    ("floor", .function ⟨Float.floor, true⟩),
    ("ceil", .function ⟨Float.ceil, true⟩),
    ("abs", .function ⟨Float.abs, true⟩),
    ("cos", .function ⟨Float.cos, true⟩),
    ("acos", .function ⟨Float.acos, false⟩),
    ("acosh", .function ⟨Elementary.arcosh, false⟩),
    ("asin", .function ⟨Float.asin, false⟩),
    ("asinh", .function ⟨Elementary.arsinh, false⟩),
    ("atan", .function ⟨Float.atan, false⟩),
    ("atanh", .function ⟨Elementary.artanh, false⟩),
    ("cbrt", .function ⟨Elementary.cubeRoot, false⟩),
    ("cosh", .function ⟨Float.cosh, false⟩),
    ("exp", .function ⟨Float.exp, false⟩),
    ("fround", .function ⟨Elementary.fround, false⟩),
    ("hypot", .function ⟨Float.abs, false⟩),
    ("log", .function ⟨Float.log, false⟩),
    ("max", .function ⟨id, false⟩),
    ("min", .function ⟨id, false⟩),
    ("round", .function ⟨Elementary.round, false⟩),
    ("sign", .function ⟨Elementary.sign, false⟩),
    ("sin", .function ⟨Float.sin, false⟩),
    ("sinh", .function ⟨Float.sinh, false⟩),
    ("sqrt", .function ⟨Float.sqrt, false⟩),
    ("tan", .function ⟨Float.tan, false⟩),
    ("tanh", .function ⟨Float.tanh, false⟩),
    ("trunc", .function ⟨Elementary.trunc, false⟩) ]

/-- The usual constants and functions of mathematics. -/
def math : Scope := ofEntries mathEntries

end Scope

end UnitCalc
