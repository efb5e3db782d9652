/-!
# Places in a text

A place is given as a byte offset or by line and column. Lines and columns are counted from 1; a
column is one character, and only a line feed starts a new line. Places are computed by walking
over the text in between, so walking over two texts in turn is the same as walking over them joined
(`byteLength_append`, `Position.advance_append`).
-/

namespace UnitCalc

/-- The number of bytes that a text takes. -/
def byteLength (text : List Char) : Nat := text.foldl (fun length c => length + c.utf8Size) 0

/-- A count that does not begin at zero is ahead by where it began. -/
theorem foldl_utf8Size (text : List Char) (start : Nat) :
    text.foldl (fun length c => length + c.utf8Size) start = start + byteLength text := by
  induction text generalizing start with
  | nil => rfl
  | cons c rest ih =>
    rw [byteLength, List.foldl_cons, List.foldl_cons, ih, ih (0 + c.utf8Size)]
    omega

/-- The bytes of two texts joined are those of the one and those of the other. -/
theorem byteLength_append (a b : List Char) :
    byteLength (a ++ b) = byteLength a + byteLength b := by
  rw [byteLength, List.foldl_append, foldl_utf8Size]
  rfl

theorem byteLength_cons (c : Char) (rest : List Char) :
    byteLength (c :: rest) = c.utf8Size + byteLength rest := by
  rw [byteLength, List.foldl_cons, foldl_utf8Size, Nat.zero_add]

/-- The bytes are those of the string that the characters make up. -/
theorem utf8ByteSize_ofList (text : List Char) :
    (String.ofList text).utf8ByteSize = byteLength text := by
  induction text with
  | nil => rfl
  | cons c rest ih =>
    have hsplit : String.ofList (c :: rest) = String.singleton c ++ String.ofList rest := by
      rw [String.singleton_eq_ofList, ← String.ofList_append]
      rfl
    rw [hsplit, String.utf8ByteSize_append, String.utf8ByteSize_singleton, ih, byteLength_cons]

/-- Line and column of a character. -/
structure Position where
  line : Nat
  column : Nat
  deriving DecidableEq, Repr

namespace Position

/-- The first character of a text. -/
def start : Position := ⟨1, 1⟩

/-- The place behind the character `c`. -/
def step (p : Position) (c : Char) : Position :=
  if c = '\n' then ⟨p.line + 1, 1⟩ else ⟨p.line, p.column + 1⟩

/-- The place reached by walking over the given characters. -/
def advance (p : Position) (walked : List Char) : Position := walked.foldl step p

/-- The part of a text before the given byte offset: whole characters only. -/
def before (text : List Char) (offset : Nat) : List Char :=
  match text with
  | [] => []
  | c :: rest => if offset < c.utf8Size then [] else c :: before rest (offset - c.utf8Size)

/-- The place of the character that starts at the given byte offset of a text. -/
def ofOffset (text : List Char) (offset : Nat) : Position := start.advance (before text offset)

/-- How diagnostics name a place. -/
def text (p : Position) : String := s!"line {p.line}, column {p.column}"

/-- A walk over two texts in turn is a walk over them joined. -/
theorem advance_append (p : Position) (a b : List Char) :
    p.advance (a ++ b) = (p.advance a).advance b :=
  List.foldl_append ..

end Position

end UnitCalc
