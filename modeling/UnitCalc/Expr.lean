import UnitCalc.Quantity
import UnitCalc.Scope

/-!
# Expressions

The trees that the calculator evaluates, and how they are written. Parentheses and plus signs in
front of an operand leave no trace in a tree. In the written form every operation stands in
parentheses of its own, except that a negation is only its sign and its operand.
-/

namespace UnitCalc

/-- A name and what it means. -/
structure Identifier where
  name : String
  binding : Binding

/-- An expression. A call names its function. -/
inductive Expr where
  | literal (value : Quantity)
  | identifier (id : Identifier)
  | binary (op : Operator) (left right : Expr)
  | call (callee : Identifier) (argument : Expr)
  | negate (operand : Expr)

namespace Expr

/-- The written form. -/
def text : Expr → String
  | literal value => value.text
  | identifier id => id.name
  | binary op left right =>
    "(" ++ left.text ++ " " ++ String.singleton op.symbol ++ " " ++ right.text ++ ")"
  | call callee argument => callee.name ++ "(" ++ argument.text ++ ")"
  | negate operand => "-" ++ operand.text

/-- How many nodes lie on the longest way from the root to a leaf, both included. -/
def height : Expr → Nat
  | literal _ | identifier _ => 1
  | binary _ left right => max left.height right.height + 1
  | call _ argument => argument.height + 1
  | negate operand => operand.height + 1

end Expr

end UnitCalc
