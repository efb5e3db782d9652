import UnitCalc.Lexeme

/-!
# How lexemes may follow one another

Before any grammar is applied, a sequence of tokens is checked for three structural faults, in this
order: two numbers side by side, two operators side by side, and parentheses that do not pair up.
The first check that finds a fault decides, wherever in the sequence it finds it.
-/

namespace UnitCalc

/-- Whether two numbers stand side by side. -/
def hasAdjacentNumbers : List Token → Bool
  | a :: b :: rest => a.isNumber && b.isNumber || hasAdjacentNumbers (b :: rest)
  | _ => false

/-- The fault of an operator directly behind another one. A minus sign may stand behind any
operator but a minus sign; no other operator may. -/
def operatorPairFault? : Token → Token → Option Fault
  | .operator .subtract, .operator .subtract => some .doubleMinus
  | .operator _, .operator .subtract => none
  | .operator _, .operator _ => some .consecutiveOperators
  | _, _ => none

/-- The fault of the first pair of operators that may not stand side by side. -/
def operatorFault? : List Token → Option Fault
  | a :: b :: rest =>
    match operatorPairFault? a b with
    | some fault => some fault
    | none => operatorFault? (b :: rest)
  | _ => none

/-- The fault of parentheses that do not pair up, with the given number of them open so far. A
closing one too many is noticed where it stands, an open one only at the end. -/
def parenthesisFault? (opened : Nat) : List Token → Option Fault
  | [] => if opened = 0 then none else some .unmatchedOpening
  | .openParen :: rest => parenthesisFault? (opened + 1) rest
  | .closeParen :: rest =>
    if opened = 0 then some .unmatchedClosing else parenthesisFault? (opened - 1) rest
  | _ :: rest => parenthesisFault? opened rest

/-- The structural fault of a sequence of tokens. -/
def arrangementFault? (tokens : List Token) : Option Fault :=
  if hasAdjacentNumbers tokens then some .adjacentNumbers
  else (operatorFault? tokens).or (parenthesisFault? 0 tokens)

/-- Accepts the lexemes that have no structural fault. -/
def checkArrangement (lexemes : List Lexeme) : Except Fault Unit :=
  match arrangementFault? (lexemes.map Lexeme.token) with
  | none => .ok ⟨⟩
  | some fault => .error fault

end UnitCalc
