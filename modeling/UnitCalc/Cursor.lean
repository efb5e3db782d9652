import UnitCalc.Lexeme

/-!
# Reading lexemes one by one

A cursor stands in front of the next lexeme of a sequence and sees no further. Behind the last one
it keeps answering with the end of the source, and every reading is counted, those behind the end
included.
-/

namespace UnitCalc

/-- A place in a sequence of lexemes. -/
structure Cursor where
  /-- The text the lexemes come from. It gives the end of the input its place. -/
  source : String
  /-- The lexemes that are still to be read. -/
  rest : List Lexeme
  /-- How many times a lexeme has been read. -/
  taken : Nat

namespace Cursor

/-- The cursor in front of all lexemes of a text. -/
def ofLexemes (source : String) (lexemes : List Lexeme) : Cursor := ⟨source, lexemes, 0⟩

/-- How many lexemes are still to be read. -/
def remaining (c : Cursor) : Nat := c.rest.length

/-- The next lexeme. -/
def peek (c : Cursor) : Lexeme := c.rest.head?.getD (Lexeme.atEnd c.source)

/-- The cursor behind the next lexeme. -/
def advance (c : Cursor) : Cursor := { c with rest := c.rest.tail, taken := c.taken + 1 }

/-- Whether there is nothing left to read. -/
def isAtEnd (c : Cursor) : Bool := c.rest.isEmpty

/-- Reads the next lexeme, which has to be the given token. It is read in either case. -/
def expect (c : Cursor) (token : Token) : Except Fault Unit × Cursor :=
  (if c.peek.token.agrees token then .ok ⟨⟩ else .error c.peek.unexpected, c.advance)

/-- Reading never leaves more to be read. -/
theorem remaining_advance_le (c : Cursor) : c.advance.remaining ≤ c.remaining := by
  simp [remaining, advance]

/-- Reading anything but the end of the input leaves less to be read. -/
theorem remaining_advance_lt {c : Cursor} (h : c.peek.token ≠ .endOfInput) :
    c.advance.remaining < c.remaining := by
  obtain ⟨source, rest, taken⟩ := c
  cases rest with
  | nil => exact absurd rfl h
  | cons lexeme rest => simp [remaining, advance]

end Cursor

end UnitCalc
