import Mathlib
import UnitCalc.Proofs.Lexeme.Position
import UnitCalc.Proofs.Lexeme.Words

/-!
# Texts joined by a separator

White space, operators and parentheses separate: two texts with one of them in between are cut into
lexemes as if they stood alone. What stands in front is found unchanged, and what stands behind is
found again further on.

* `Position.advance_eq_behind`: a walk that starts anywhere comes to the place behind its start that
  the same walk comes to from the start of a text.
* `layOut_append`: pieces that are laid out behind others are moved by the text of those.
* `tokenize_separated`: so the lexemes of the joined text are those of its parts, and a fault of a
  part, the front one first, is the fault of the whole.
-/

namespace UnitCalc

/-! ## Places -/

namespace Position

/-- The place `p` of a text, counted on from `origin`. Only the first line of the text continues a
line. -/
def behind (origin p : Position) : Position :=
  ⟨origin.line + (p.line - 1), if p.line = 1 then origin.column + (p.column - 1) else p.column⟩

theorem behind_start (origin : Position) : origin.behind start = origin := rfl

/-- Counting on from another place commutes with the step over a character. Only a character of the
first line moves a column that depends on the place. -/
theorem behind_step (origin : Position) {p : Position} (c : Char) (hline : 1 ≤ p.line)
    (hcolumn : 1 ≤ p.column) : origin.behind (p.step c) = (origin.behind p).step c := by
  obtain ⟨line, column⟩ := p
  dsimp only at hline hcolumn
  -- the end of a line begins a new column, whatever the place was
  by_cases hc : c = '\n'
  · simp only [behind, step, if_pos hc, mk.injEq]
    have hnext : line + 1 ≠ 1 := by omega
    exact ⟨by omega, if_neg hnext⟩
  · simp only [behind, step, if_neg hc, mk.injEq, true_and]
    split <;> omega

/-- The induction is on the end of the walk, as for `advance_start`. -/
theorem advance_eq_behind (origin : Position) (walked : List Char) :
    origin.advance walked = origin.behind (start.advance walked) := by
  induction walked using List.reverseRecOn with
  | nil => exact (behind_start origin).symm
  | append_singleton walked c ih =>
    rw [advance_concat, advance_concat, ih, behind_step]
    · rw [advance_start]
      exact Nat.le_add_right 1 _
    · rw [advance_start]
      exact Nat.le_add_right 1 _

end Position

/-! ## Lexemes -/

/-- A lexeme of a text that stands behind the text `front`. -/
def Lexeme.behind (front : List Char) (l : Lexeme) : Lexeme :=
  { l with
    start := byteLength front + l.start
    stop := byteLength front + l.stop
    position := (Position.start.advance front).behind l.position }

/-- The lexeme of a single sign behind the text `front`. -/
def Lexeme.sign (front : List Char) (c : Char) (t : Token) : Lexeme :=
  { token := t
    text := String.singleton c
    start := byteLength front
    stop := byteLength front + c.utf8Size
    position := Position.start.advance front }

/-- Two layouts of the same pieces, one of them behind the text `front`: if they agree on the
lexemes so far, they go on to agree. -/
theorem Layout.Behind.lexemes_foldl {front text before : List Char} {alone layout : Layout}
    {earlier : List Lexeme} {ps : List Piece} (halone : alone.Behind text before)
    (hlayout : layout.Behind (front ++ text) (front ++ before))
    (htext : text = before ++ ps.flatMap Piece.chars)
    (hlexemes : layout.lexemes = alone.lexemes.map (Lexeme.behind front) ++ earlier) :
    (ps.foldl Layout.put layout).lexemes =
      (ps.foldl Layout.put alone).lexemes.map (Lexeme.behind front) ++ earlier := by
  induction ps generalizing before alone layout with
  | nil => exact hlexemes
  | cons piece ps ih =>
    rw [List.flatMap_cons] at htext
    have hwhole : front ++ text = (front ++ before) ++ (piece.chars ++ ps.flatMap Piece.chars) := by
      rw [htext, List.append_assoc]
    have hnext := hlayout.put hwhole
    rw [List.append_assoc] at hnext
    refine ih (halone.put htext) hnext (by rw [htext, List.append_assoc]) ?_
    cases piece with
    | blank c => exact hlexemes
    | lexeme t w =>
      -- the new lexeme begins at the same place behind `front`
      have hoffset : layout.offset = byteLength front + alone.offset := by
        rw [hlayout.offset, halone.offset, byteLength_append]
      have hposition : layout.position =
          (Position.start.advance front).behind alone.position := by
        rw [hlayout.position, halone.position, Position.advance_append,
          Position.advance_eq_behind]
      simp only [Layout.put, List.map_cons, List.cons_append, hlexemes, List.cons.injEq, and_true]
      rw [Lexeme.behind, hoffset, hposition, Nat.add_assoc]

/-- What is laid out behind other pieces is moved by the text of those. -/
theorem layOut_append (ps qs : List Piece) :
    layOut (ps ++ qs) =
      layOut ps ++ (layOut qs).map (Lexeme.behind (ps.flatMap Piece.chars)) := by
  have htext : ps.flatMap Piece.chars ++ qs.flatMap Piece.chars =
      [] ++ (ps.flatMap Piece.chars ++ qs.flatMap Piece.chars) := rfl
  have hfront :=
    (Layout.Behind.start (ps.flatMap Piece.chars ++ qs.flatMap Piece.chars)).foldl htext
  have hboth := (Layout.Behind.start (qs.flatMap Piece.chars)).lexemes_foldl
    (by rw [List.append_nil]; exact hfront) rfl (List.nil_append _).symm
  rw [layOut, List.foldl_append, hboth, List.reverse_append, ← List.map_reverse]
  rfl

/-! ## Separators -/

/-- The character separates texts. If it is no white space, it is a lexeme of its own with the given
token. -/
inductive Separator : Char → Option Token → Prop where
  | blank {c : Char} (h : isBlank c = true) : Separator c none
  | operator (op : Operator) : Separator op.symbol (some (.operator op))
  | openParen : Separator '(' (some .openParen)
  | closeParen : Separator ')' (some .closeParen)

namespace Separator

variable {c : Char} {own : Option Token}

/-- A separator is white space or a sign. -/
theorem isBlank_or_symbol (hc : Separator c own) :
    isBlank c = true ∧ own = none ∨ ∃ t, Token.ofSymbol? c = some t ∧ own = some t := by
  cases hc with
  | blank h => exact .inl ⟨h, rfl⟩
  | operator op => exact .inr ⟨_, ofSymbol?_symbol op, rfl⟩
  | openParen => exact .inr ⟨_, by decide, rfl⟩
  | closeParen => exact .inr ⟨_, by decide, rfl⟩

theorem breaks (hc : Separator c own) : Breaks c := by
  rcases hc.isBlank_or_symbol with ⟨hblank, -⟩ | ⟨t, ht, -⟩
  · exact breaks_blank hblank
  · exact breaks_sign ht

/-- The piece that the separator is. -/
def piece (c : Char) : Option Token → Piece
  | none => .blank c
  | some t => .lexeme t [c]

theorem chars_piece (c : Char) (own : Option Token) : (piece c own).chars = [c] := by
  cases own <;> rfl

theorem pieces_cons (hc : Separator c own) (rest : List Char) :
    pieces (c :: rest) = (pieces rest).map (piece c own :: ·) := by
  rcases hc.isBlank_or_symbol with ⟨hblank, rfl⟩ | ⟨t, ht, rfl⟩
  · rw [UnitCalc.pieces_cons, if_pos hblank]
    rfl
  · exact pieces_sign ht rest

/-- The separator alone is laid out as its own lexeme, or as nothing. -/
theorem layOut_piece (front : List Char) (c : Char) (own : Option Token) :
    (layOut [piece c own]).map (Lexeme.behind front) = (own.map (Lexeme.sign front c)).toList := by
  cases own with
  | none => rfl
  | some t =>
    have hlength : 0 + byteLength [c] = c.utf8Size := by
      rw [byteLength_cons]
      exact Nat.zero_add _
    show [Lexeme.behind front ⟨t, String.ofList [c], 0, 0 + byteLength [c], Position.start⟩] =
      [Lexeme.sign front c t]
    rw [Lexeme.behind, Lexeme.sign, hlength, Position.behind_start, String.singleton_eq_ofList]
    rfl

end Separator

/-- Two texts with a separator in between are cut into lexemes apart. A fault in the front one is
found first and is the fault of the whole, and so is a fault in the other one. If there is none, the
lexemes of the front one are followed by that of the separator, unless it is white space, and by
those of the other one, all of them moved behind the separator. -/
theorem tokenize_separated {c : Char} {own : Option Token} (hc : Separator c own) (a b : String) :
    tokenize (a ++ String.singleton c ++ b) = do
      let before ← tokenize a
      let behind ← tokenize b
      return before ++ (own.map (Lexeme.sign a.toList c)).toList ++
        behind.map (Lexeme.behind (a.toList ++ [c])) := by
  have htext : (a ++ String.singleton c ++ b).toList = a.toList ++ c :: b.toList := by simp
  rw [tokenize, htext, pieces_append hc.breaks, hc.pieces_cons, tokenize, tokenize]
  -- a fault in front comes first, since it is found before the rest is looked at
  cases ha : pieces a.toList with
  | error fault => rfl
  | ok before =>
    cases hb : pieces b.toList with
    | error fault => rfl
    | ok behind =>
      -- the pieces in front and the separator have the text that all others are moved by
      have hfront : (before ++ [Separator.piece c own]).flatMap Piece.chars = a.toList ++ [c] := by
        rw [List.flatMap_append, pieces_chars ha, List.flatMap_singleton, Separator.chars_piece]
      have hall : layOut (before ++ Separator.piece c own :: behind) =
          layOut before ++ (own.map (Lexeme.sign a.toList c)).toList ++
            (layOut behind).map (Lexeme.behind (a.toList ++ [c])) := by
        rw [List.append_cons, layOut_append, hfront, layOut_append, pieces_chars ha,
          Separator.layOut_piece]
      exact congrArg Except.ok hall

/-- Both texts have two lines, so the lines and the columns behind the sign are counted on. -/
theorem tokenize_separated_multiply :
    Separator '*' (some (.operator .multiply)) ∧
      tokenize ("x\n y" ++ String.singleton '*' ++ "z\nw") =
        .ok [⟨.name "x", "x", 0, 1, ⟨1, 1⟩⟩, ⟨.name "y", "y", 3, 4, ⟨2, 2⟩⟩,
          ⟨.operator .multiply, "*", 4, 5, ⟨2, 3⟩⟩, ⟨.name "z", "z", 5, 6, ⟨2, 4⟩⟩,
          ⟨.name "w", "w", 7, 8, ⟨3, 1⟩⟩] := by
  have hc : Separator '*' (some (.operator .multiply)) := .operator .multiply
  have hfront : tokenize "x\n y" =
      .ok [⟨.name "x", "x", 0, 1, ⟨1, 1⟩⟩, ⟨.name "y", "y", 3, 4, ⟨2, 2⟩⟩] := by cbv
  have hbehind : tokenize "z\nw" =
      .ok [⟨.name "z", "z", 0, 1, ⟨1, 1⟩⟩, ⟨.name "w", "w", 2, 3, ⟨2, 1⟩⟩] := by cbv
  refine ⟨hc, ?_⟩
  rw [tokenize_separated hc, hfront, hbehind]
  rfl

end UnitCalc
