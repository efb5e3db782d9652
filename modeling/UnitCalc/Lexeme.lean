import UnitCalc.Quantity

/-!
# Tokens and lexemes

A token is what a stretch of the text means: a number, a name, an operator or a parenthesis. A
lexeme is a token together with that stretch and its place.
-/

namespace UnitCalc

/-- What a lexeme stands for. `endOfInput` stands behind the last lexeme of a text. -/
inductive Token where
  | number (value : Quantity)
  | name (text : String)
  | operator (op : Operator)
  | openParen
  | closeParen
  | endOfInput
  deriving DecidableEq

namespace Token

/-- The token written with a single sign. -/
def ofSymbol? (c : Char) : Option Token :=
  if c = '(' then some .openParen
  else if c = ')' then some .closeParen
  else ([.add, .subtract, .multiply, .divide, .power].find? fun op => op.symbol == c).map .operator

/-- Whether the token is a number, with a unit or without. -/
def isNumber : Token → Bool
  | number _ => true
  | _ => false

/-- Whether the token is one of the five operators. -/
def isOperator : Token → Bool
  | operator _ => true
  | _ => false

/-- How a listing of tokens shows this one. -/
def display : Token → String
  | number value =>
    (if value.unit.isNone then "Number(" else "NumberWithUnit(") ++ value.text ++ ")"
  | name text => "Name(" ++ text ++ ")"
  | operator .add => "Plus"
  | operator .subtract => "Minus"
  | operator .multiply => "Multiply"
  | operator .divide => "Divide"
  | operator .power => "Power"
  | openParen => "LParen"
  | closeParen => "RParen"
  | endOfInput => "Eof"

/-- Whether a token is the one that was asked for. Numbers are compared as numbers are: a zero
agrees with the other zero, and a NaN with nothing. -/
def agrees : Token → Token → Bool
  | number a, number b => a.magnitude == b.magnitude && a.unit = b.unit && a.ratio = b.ratio
  | a, b => a = b

end Token

/-- A token with the text it was read from, the byte offsets between which that text lies and the
place where it starts. -/
structure Lexeme where
  token : Token
  text : String
  start : Nat
  stop : Nat
  position : Position
  deriving DecidableEq

namespace Lexeme

/-- The end of a text: an empty lexeme behind its last character. -/
def atEnd (source : String) : Lexeme :=
  { token := .endOfInput
    text := ""
    start := byteLength source.toList
    stop := byteLength source.toList
    position := Position.start.advance source.toList }

/-- How diagnostics name the lexeme. -/
def shown (lexeme : Lexeme) : String :=
  match lexeme.token with
  | .endOfInput => "<<EOF>>"
  | _ => lexeme.text

/-- The fault of a lexeme that does not belong where it stands. -/
def unexpected (lexeme : Lexeme) : Fault := .unexpectedToken lexeme.shown

end Lexeme

end UnitCalc
