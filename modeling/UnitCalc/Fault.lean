import UnitCalc.CssUnit
import UnitCalc.Position

/-!
# What can go wrong

Every way in which an expression can fail to have a value, as a cause with the data that describes
it. `Fault.message` holds the wording of all of them, and `Fault.kind` sorts them by the stage that
finds them.
-/

namespace UnitCalc

/-- Why an expression has no value. -/
inductive Fault where
  /-- A number with more than one point, or with a tail that is no unit. -/
  | malformedNumber (text : String)
  /-- A character that starts no lexeme. -/
  | unexpectedCharacter (c : Char)
  | adjacentNumbers
  | doubleMinus
  | consecutiveOperators
  | unmatchedOpening
  | unmatchedClosing
  /-- A name that the scope does not know. -/
  | unknownIdentifier (name : String) (position : Option Position)
  /-- An argument in parentheses behind something that is not a name. -/
  | notInvocable
  /-- An argument in parentheses behind the name of a constant. -/
  | notAFunction (name : String)
  /-- The name of a function without an argument. -/
  | functionNotCalled (name : String)
  /-- A sum or difference of different units. -/
  | unitMismatch (operation : String) (left right : Option CssUnit)
  | multiplyUnits (left right : Option CssUnit)
  | divideUnits (left right : Option CssUnit)
  | powerUnits
  /-- A lexeme where the grammar has none of its sort. -/
  | unexpectedToken (text : String)
  | nestingTooDeep
  deriving DecidableEq, Repr

/-- The sorts of faults that callers tell apart. -/
inductive FaultKind where
  | lex
  | structural
  | unknownIdentifier
  | invocation
  | unitMismatch
  | grammar
  deriving DecidableEq, Repr

namespace Fault

/-- The sort of a fault. -/
def kind : Fault → FaultKind
  | malformedNumber _ | unexpectedCharacter _ => .lex
  | adjacentNumbers | doubleMinus | consecutiveOperators | unmatchedOpening | unmatchedClosing =>
    .structural
  | unknownIdentifier .. => .unknownIdentifier
  | notInvocable | notAFunction _ | functionNotCalled _ => .invocation
  | unitMismatch .. | multiplyUnits .. | divideUnits .. | powerUnits => .unitMismatch
  | unexpectedToken _ | nestingTooDeep => .grammar

/-- Where a name stands, if that is known. -/
def located : Option Position → String
  | some position => " at " ++ position.text
  | none => ""

/-- The wording of a fault. -/
def message : Fault → String
  | malformedNumber text => "Invalid number format: \"" ++ text ++ "\""
  | unexpectedCharacter c => "Unexpected character in input: " ++ String.singleton c
  | adjacentNumbers => "Adjacent numbers are not allowed"
  | doubleMinus => "Double minus (--) is not allowed"
  | consecutiveOperators => "Consecutive operators are not allowed"
  | unmatchedOpening => "Unmatched opening parenthesis"
  | unmatchedClosing => "Unmatched closing parenthesis"
  | unknownIdentifier name position =>
    "Unknown expression: '" ++ name ++ "'" ++ located position
      ++ ". Only Math constants and functions are supported."
  | notInvocable => "Cannot invoke expression as if it was a function"
  | notAFunction _ => "Cannot invoke non-function"
  | functionNotCalled name => "Function '" ++ name ++ "' must be called with an argument"
  | unitMismatch operation left right =>
    "Cannot " ++ operation ++ " values with different units: "
      ++ CssUnit.label left ++ " and " ++ CssUnit.label right
  | multiplyUnits left right =>
    "Cannot multiply two unit-bearing values: "
      ++ CssUnit.label left ++ " and " ++ CssUnit.label right
  | divideUnits left right =>
    "Cannot divide incompatible units: " ++ CssUnit.label left ++ " and " ++ CssUnit.label right
  | powerUnits => "Power operations can only be performed on unitless values"
  | unexpectedToken text => "Unexpected token: " ++ text
  | nestingTooDeep => "Expression is nested too deeply"

end Fault

end UnitCalc
