import UnitCalc.Expr.Parse

/-!
# Values and answers

Expressions are evaluated from the leaves up and from left to right, and the first fault on that
way is the fault of the expression. Units are checked at every operation; what a function does with
the unit of its argument is part of the function.

The value of the expression that a text spells is the answer to the text. A plain number stays a
number; a quantity with a unit is shown as text, and so is a ratio, the quotient of two quantities
of the same unit.
-/

namespace UnitCalc

/-! ## The value of an expression -/

/-- The value of a name on its own, which has to be a constant. -/
def Identifier.value (id : Identifier) : Except Fault Quantity :=
  match id.binding with
  | .constant value => .ok ⟨value, none, false⟩
  | .function _ => .error (.functionNotCalled id.name)

/-- The value of a name applied to an argument; the name has to be that of a function. -/
def Identifier.apply (id : Identifier) (argument : Quantity) : Except Fault Quantity :=
  match id.binding with
  | .constant _ => .error (.notAFunction id.name)
  | .function f =>
    .ok ⟨f.apply argument.magnitude, if f.keepsUnit then argument.unit else none, false⟩

/-- The value of an expression. -/
def Expr.eval : Expr → Except Fault Quantity
  | literal value => .ok value
  | identifier id => id.value
  | binary op left right => do
    let a ← left.eval
    let b ← right.eval
    op.apply a b
  | call callee argument => do callee.apply (← argument.eval)
  | negate operand => do return (← operand.eval).neg

/-! ## The answer to a text -/

/-- The result of a calculation, ready to be shown. -/
inductive Answer where
  | number (value : Float)
  | text (text : String)
  deriving DecidableEq

namespace Answer

def ofQuantity (q : Quantity) : Answer :=
  match q.unit with
  | some _ => .text q.text
  | none => if q.ratio then .text (numberText q.magnitude) else .number q.magnitude

/-- How the answer is shown. -/
def display : Answer → String
  | number value => numberText value
  | text shown => shown

end Answer

/-- The answer to the text of an expression whose names mean what the scope says. -/
def evaluate (scope : Scope) (text : String) : Except Fault Answer := do
  let expr ← Expr.ofText scope text
  return Answer.ofQuantity (← expr.eval)

end UnitCalc
