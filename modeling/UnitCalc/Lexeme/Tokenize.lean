import UnitCalc.Lexeme

/-!
# From text to lexemes

A text is cut into pieces, from the left and each as long as possible: a blank, a run of letters,
a single sign, or a number with whatever is attached to it. The pieces say nothing about places;
laying them out one behind the other gives every lexeme its span and its position.

* `isBlank`, `isDecimalDigit`: the characters that separate lexemes and those that can start a
  number. Both classes are properties of the Unicode character database: a blank has the property
  White_Space, a decimal digit the general category Nd. Letters, by contrast, are ASCII letters
  throughout the calculator, and the classes of `Char` serve for them.
* `numberRun`: the longest start of a text that has the form of a number. Digits of any script and
  any alphanumeric tail belong to it, so that `12abc` is one malformed number and not a number and
  a name.
* `firstLexeme`: the token a text starts with, or why it starts with none.
* `pieces_cons`: one step of the cutting. Later proofs use it and not the recursion itself.
-/

namespace UnitCalc

/-! ## Character classes -/

/-- The code points of the property White_Space, as ranges with both ends included. -/
def blankRanges : List (Nat × Nat) :=
  [(0x0009, 0x000D), (0x0020, 0x0020), (0x0085, 0x0085), (0x00A0, 0x00A0), (0x1680, 0x1680),
    (0x2000, 0x200A), (0x2028, 0x2029), (0x202F, 0x202F), (0x205F, 0x205F), (0x3000, 0x3000)]

/-- The zeros of the general category Nd. Each one starts a run of ten digits, zero to nine, and
there are no digits outside these runs. -/
def decimalZeros : List Nat :=
  [0x0030, 0x0660, 0x06F0, 0x07C0, 0x0966, 0x09E6, 0x0A66, 0x0AE6, 0x0B66, 0x0BE6, 0x0C66, 0x0CE6,
    0x0D66, 0x0DE6, 0x0E50, 0x0ED0, 0x0F20, 0x1040, 0x1090, 0x17E0, 0x1810, 0x1946, 0x19D0, 0x1A80,
    0x1A90, 0x1B50, 0x1BB0, 0x1C40, 0x1C50, 0xA620, 0xA8D0, 0xA900, 0xA9D0, 0xA9F0, 0xAA50, 0xABF0,
    0xFF10, 0x104A0, 0x10D30, 0x10D40, 0x11066, 0x110F0, 0x11136, 0x111D0, 0x112F0, 0x11450,
    0x114D0, 0x11650, 0x116C0, 0x116D0, 0x116DA, 0x11730, 0x118E0, 0x11950, 0x11BF0, 0x11C50,
    0x11D50, 0x11DA0, 0x11F50, 0x16130, 0x16A60, 0x16AC0, 0x16B50, 0x16D70, 0x1CCF0, 0x1D7CE,
    0x1D7D8, 0x1D7E2, 0x1D7EC, 0x1D7F6, 0x1E140, 0x1E2F0, 0x1E4F0, 0x1E5F1, 0x1E950, 0x1FBF0]

/-- White space, which separates lexemes and is otherwise skipped. -/
def isBlank (c : Char) : Bool :=
  blankRanges.any fun range => range.1 ≤ c.toNat && c.toNat ≤ range.2

/-- A decimal digit of any script. -/
def isDecimalDigit (c : Char) : Bool :=
  decimalZeros.any fun first => first ≤ c.toNat && c.toNat < first + 10

/-- The ASCII digits are decimal digits. -/
theorem isDecimalDigit_of_isDigit {c : Char} (h : c.isDigit = true) : isDecimalDigit c = true := by
  have hc : 0x30 ≤ c.toNat ∧ c.toNat < 0x30 + 10 := by
    simp only [Char.isDigit, Bool.and_eq_true, decide_eq_true_eq, UInt32.le_iff_toNat_le] at h
    have : c.val.toNat = c.toNat := rfl
    have h0 : ('0' : Char).val.toNat = 48 := rfl
    have h9 : ('9' : Char).val.toNat = 57 := rfl
    omega
  exact List.any_eq_true.2 ⟨0x0030, by simp [decimalZeros], by simpa using hc⟩

/-! ## The number rule -/

/-- The longest start of the form digits, optionally with a point and more digits, or a point with
at least one digit. -/
def numeralRun (text : List Char) : List Char :=
  let whole := text.takeWhile isDecimalDigit
  match text.dropWhile isDecimalDigit with
  | '.' :: rest =>
    let fraction := rest.takeWhile isDecimalDigit
    if whole.isEmpty && fraction.isEmpty then [] else whole ++ '.' :: fraction
  | _ => whole

/-- The longest start of the form of a unit: a letter or a percent sign with any letters and ASCII
digits behind it. -/
def suffixRun : List Char → List Char
  | [] => []
  | c :: rest => if c.isAlpha || c = '%' then c :: rest.takeWhile Char.isAlphanum else []

/-- The longest start of the form of a number, empty if there is none. -/
def numberRun (text : List Char) : List Char :=
  let numeral := numeralRun text
  if numeral.isEmpty then [] else numeral ++ suffixRun (text.drop numeral.length)

/-! ## Cutting a text into pieces -/

/-- The first lexeme of a text that starts with the character `c`, as a token and its text. -/
def firstLexeme (c : Char) (rest : List Char) : Except Fault (Token × List Char) :=
  if c.isAlpha then
    let name := c :: rest.takeWhile Char.isAlpha
    .ok (.name (String.ofList name), name)
  else
    match Token.ofSymbol? c with
    | some token => .ok (token, [c])
    | none =>
      let number := numberRun (c :: rest)
      if number.isEmpty then .error (.unexpectedCharacter c)
      else
        match Quantity.ofChars? number with
        | some value => .ok (.number value, number)
        | none => .error (.malformedNumber (String.ofList number))

/-- A stretch of the text. -/
inductive Piece where
  | blank (c : Char)
  | lexeme (token : Token) (text : List Char)
  deriving DecidableEq

/-- The characters of a piece. -/
def Piece.chars : Piece → List Char
  | blank c => [c]
  | lexeme _ text => text

/-- Cuts a text into pieces, behind those that are already cut off, the latest of them first. -/
def piecesOnto (done : List Piece) (text : List Char) : Except Fault (List Piece) :=
  match text with
  | [] => .ok done.reverse
  | c :: rest =>
    if isBlank c then piecesOnto (.blank c :: done) rest
    else
      match firstLexeme c rest with
      | .ok (token, chars) =>
          piecesOnto (.lexeme token chars :: done) (rest.drop (chars.length - 1))
      | .error fault => .error fault
termination_by text.length

/-- Cuts a text into pieces. The leftmost place where no piece fits decides the fault. -/
def pieces (text : List Char) : Except Fault (List Piece) := piecesOnto [] text

/-! ## Laying out the pieces -/

/-- How far a layout has come, and the lexemes it has passed, the latest first. -/
structure Layout where
  offset : Nat
  position : Position
  lexemes : List Lexeme

/-- Puts a piece behind the ones before it. -/
def Layout.put (layout : Layout) (piece : Piece) : Layout :=
  let stop := layout.offset + byteLength piece.chars
  let next := layout.position.advance piece.chars
  match piece with
  | .blank _ => { layout with offset := stop, position := next }
  | .lexeme token text =>
    { offset := stop
      position := next
      lexemes :=
        ⟨token, String.ofList text, layout.offset, stop, layout.position⟩ :: layout.lexemes }

/-- The lexemes among the pieces of a text, each with its place in the text. -/
def layOut (ps : List Piece) : List Lexeme :=
  (ps.foldl Layout.put ⟨0, Position.start, []⟩).lexemes.reverse

/-- The lexemes of a text. -/
def tokenize (text : String) : Except Fault (List Lexeme) := (pieces text.toList).map layOut

/-! ## One step at a time -/

/-- The pieces that are cut off already do not influence the rest. -/
theorem piecesOnto_append (done before : List Piece) (text : List Char) :
    piecesOnto (done ++ before) text = (piecesOnto done text).map (before.reverse ++ ·) := by
  -- on the text that is left; the pieces already cut off grow along with it
  fun_induction piecesOnto done text with
  | case1 done => simp [piecesOnto, Except.map]
  | case2 done c rest hc ih => rw [piecesOnto, if_pos hc]; exact ih
  | case3 done c rest hc token chars h ih => rw [piecesOnto, if_neg hc, h]; exact ih
  | case4 done c rest hc fault h => simp [piecesOnto, hc, h, Except.map]

theorem piecesOnto_eq (done : List Piece) (text : List Char) :
    piecesOnto done text = (pieces text).map (done.reverse ++ ·) :=
  piecesOnto_append [] done text

theorem pieces_nil : pieces [] = .ok [] := by simp [pieces, piecesOnto]

/-- A text is cut behind its first piece, and the rest is cut like a text of its own. -/
theorem pieces_cons (c : Char) (rest : List Char) :
    pieces (c :: rest) =
      if isBlank c then (pieces rest).map (Piece.blank c :: ·)
      else
        match firstLexeme c rest with
        | .ok (token, chars) =>
          (pieces (rest.drop (chars.length - 1))).map (Piece.lexeme token chars :: ·)
        | .error fault => .error fault := by
  rw [pieces, piecesOnto]
  -- a blank is a piece of its own, anything else is what its first lexeme says
  split
  · simp [piecesOnto_eq]
  · split <;> simp [piecesOnto_eq]

end UnitCalc
