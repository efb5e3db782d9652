import Mathlib
import UnitCalc.Proofs.Lexeme.Rules
import UnitCalc.Proofs.Results

/-!
# What a text says

A word is what a lexeme says: its token and its text, wherever it stands. The words of a text are
those of its pieces, and its tokens are those of its words.

* `wordsOf_nil`, `wordsOf_blank`, `wordsOf_append`: the words of a text are put together from those
  of its parts. Blanks say nothing.
* `wordsOf_alone`: a word of a rule, as a text of its own, says one thing only.
* `tokensOf_name`, `tokensOf_literal`: names and literals are such words.
-/

namespace UnitCalc

/-! ## Words -/

/-- What a lexeme says, wherever it stands. -/
def Lexeme.word (l : Lexeme) : Token × String := (l.token, l.text)

/-- What a piece says. A blank says nothing. -/
def Piece.word? : Piece → Option (Token × String)
  | .blank _ => none
  | .lexeme t chars => some (t, String.ofList chars)

/-- The words of a text, or the fault for which it is not cut. -/
def wordsOf (text : List Char) : Except Fault (List (Token × String)) :=
  (pieces text).map fun ps => ps.filterMap Piece.word?

/-- Laying out pieces adds their words to those that are there. -/
theorem map_word_foldl_put (ps : List Piece) (layout : Layout) :
    (ps.foldl Layout.put layout).lexemes.reverse.map Lexeme.word =
      layout.lexemes.reverse.map Lexeme.word ++ ps.filterMap Piece.word? := by
  induction ps generalizing layout with
  | nil => simp
  | cons piece ps ih =>
    rw [List.foldl_cons, ih]
    cases piece with
    | blank c =>
      rw [List.filterMap_cons_none rfl]
      rfl
    | lexeme t chars =>
      have hword : (Piece.lexeme t chars).word? = some (t, String.ofList chars) := rfl
      rw [List.filterMap_cons_some hword]
      simp [Layout.put, Lexeme.word]

/-- Where the pieces of a text lie does not matter for its words. -/
theorem tokenize_words (text : String) :
    (tokenize text).map (fun lexemes => lexemes.map Lexeme.word) = wordsOf text.toList := by
  unfold tokenize wordsOf
  -- the layout begins with no lexemes, so the words are those of the pieces
  cases pieces text.toList with
  | error fault => rfl
  | ok ps =>
    have h := map_word_foldl_put ps ⟨0, Position.start, []⟩
    simp only [Except.map, layOut]
    rw [h]
    rfl

theorem wordsOf_nil : wordsOf [] = .ok [] := by
  rw [wordsOf, pieces_nil]
  rfl

theorem wordsOf_blank {c : Char} (hc : isBlank c = true) (rest : List Char) :
    wordsOf (c :: rest) = wordsOf rest := by
  rw [wordsOf, wordsOf, pieces_cons, if_pos hc]
  cases pieces rest <;> rfl

/-- Two texts that meet at a break say what they say on their own. -/
theorem wordsOf_append {c : Char} (hc : Breaks c) {a b : List Char} {w v : List (Token × String)}
    (ha : wordsOf a = .ok w) (hb : wordsOf (c :: b) = .ok v) :
    wordsOf (a ++ c :: b) = .ok (w ++ v) := by
  obtain ⟨before, hbefore, rfl⟩ := exists_of_map_eq_ok ha
  obtain ⟨behind, hbehind, rfl⟩ := exists_of_map_eq_ok hb
  rw [wordsOf, pieces_append hc, hbefore, hbehind, ← List.filterMap_append]
  rfl

/-! ## A word alone -/

/-- No word of a rule begins with a blank. -/
theorem Rule.isBlank_of_begins {r : Rule} {c : Char} (h : r.begins c = true) :
    isBlank c = false := by
  rw [Bool.eq_false_iff]
  intro hblank
  -- no number and no name begins with a blank, since neither goes on with one
  have hbreaks := breaks_blank hblank
  cases r with
  | number => simp [begins, hbreaks.digit, hbreaks.point] at h
  | name => simp [begins, hbreaks.alpha] at h
  | sign =>
    obtain ⟨t, ht⟩ := Option.isSome_iff_exists.1 h
    rw [isBlank_sign ht] at hblank
    exact absurd hblank (by simp)

/-- A word of a rule, as a text of its own, is one lexeme. It is the longest start of itself. -/
theorem wordsOf_alone {r : Rule} {w : List Char} {t : Token} (hmem : w ∈ r.language)
    (hmakes : r.Makes w t) : wordsOf w = .ok [(t, String.ofList w)] := by
  obtain ⟨c, rest, rfl, hc⟩ := Rule.begins_of_mem hmem
  have hfirst : firstLexeme c rest = .ok (t, c :: rest) :=
    firstLexeme_eq_ok.2 ⟨r, .of_mem hmem, hmakes⟩
  -- nothing is left behind the word
  have hdrop : rest.drop ((c :: rest).length - 1) = [] := by simp
  rw [wordsOf, pieces_cons, if_neg (by simp [Rule.isBlank_of_begins hc]), hfirst]
  simp only [hdrop, pieces_nil]
  rfl

theorem Numeral.mem {text : List Char} {d : Decimal} (h : Numeral text d) :
    text ∈ Rule.numeral := by
  cases h with
  | whole hne hds =>
    exact Rule.mem_numeral.2 (.inl ⟨hne, fun c hc => isDecimalDigit_of_isDigit (hds c hc)⟩)
  | point hne hds hfs =>
    exact Rule.mem_numeral.2 (.inr ⟨_, _, hne, fun c hc => isDecimalDigit_of_isDigit (hds c hc),
      fun c hc => isDecimalDigit_of_isDigit (hfs c hc), rfl⟩)

theorem suffix_mem_attachment (unit : CssUnit) : unit.suffix.toList ∈ Rule.attachment := by
  rw [Rule.mem_attachment]
  cases unit <;> exact ⟨_, _, by simp, by simp, String.toList_ofList⟩

theorem Literal.mem {text : List Char} {q : Quantity} (h : Literal text q) :
    text ∈ Rule.number.language := by
  cases h with
  | bare hnumeral =>
    exact Rule.mem_number.2 ⟨_, [], hnumeral.mem, .inl rfl, (List.append_nil _).symm⟩
  | unit hnumeral unit =>
    exact Rule.mem_number.2 ⟨_, _, hnumeral.mem, .inr (suffix_mem_attachment unit), rfl⟩

/-! ## Tokens -/

/-- The token of a piece. A blank has none. -/
def Piece.token? : Piece → Option Token
  | .blank _ => none
  | .lexeme t _ => some t

/-- The tokens of a text, or the fault for which it is not cut. -/
def tokensOf (text : List Char) : Except Fault (List Token) :=
  (pieces text).map fun ps => ps.filterMap Piece.token?

/-- The tokens of a text are those of its words. -/
theorem tokensOf_eq (text : List Char) :
    tokensOf text = (wordsOf text).map fun words => words.map Prod.fst := by
  have htoken : Piece.token? = fun piece => piece.word?.map Prod.fst := by
    funext piece
    cases piece <;> rfl
  unfold tokensOf wordsOf
  cases pieces text with
  | error fault => rfl
  | ok ps => simp only [Except.map, htoken, List.map_filterMap]

/-- The lexemes of a text have its tokens. -/
theorem tokenize_tokens (text : String) :
    (tokenize text).map (fun lexemes => lexemes.map Lexeme.token) = tokensOf text.toList := by
  rw [tokensOf_eq, ← tokenize_words]
  cases tokenize text with
  | error fault => rfl
  | ok lexemes =>
    simp only [Except.map, List.map_map]
    rfl

theorem tokensOf_nil : tokensOf [] = .ok [] := by
  rw [tokensOf_eq, wordsOf_nil]
  rfl

theorem tokensOf_blank {c : Char} (hc : isBlank c = true) (rest : List Char) :
    tokensOf (c :: rest) = tokensOf rest := by
  rw [tokensOf_eq, tokensOf_eq, wordsOf_blank hc]

theorem tokensOf_append {c : Char} (hc : Breaks c) {a b : List Char} {w v : List Token}
    (ha : tokensOf a = .ok w) (hb : tokensOf (c :: b) = .ok v) :
    tokensOf (a ++ c :: b) = .ok (w ++ v) := by
  rw [tokensOf_eq] at ha hb
  obtain ⟨before, hbefore, rfl⟩ := exists_of_map_eq_ok ha
  obtain ⟨behind, hbehind, rfl⟩ := exists_of_map_eq_ok hb
  rw [tokensOf_eq, wordsOf_append hc hbefore hbehind, ← List.map_append]
  rfl

theorem tokensOf_alone {r : Rule} {w : List Char} {t : Token} (hmem : w ∈ r.language)
    (hmakes : r.Makes w t) : tokensOf w = .ok [t] := by
  rw [tokensOf_eq, wordsOf_alone hmem hmakes]
  rfl

/-- A sign is a lexeme of its own, whatever stands behind it. -/
theorem pieces_sign {c : Char} {t : Token} (hsymbol : Token.ofSymbol? c = some t)
    (rest : List Char) : pieces (c :: rest) = (pieces rest).map (.lexeme t [c] :: ·) := by
  have hfirst : firstLexeme c rest = .ok (t, [c]) :=
    firstLexeme_eq_ok.2 ⟨.sign, .sign hsymbol, Rule.makes_of_ofSymbol? hsymbol⟩
  have hdrop : rest.drop ([c].length - 1) = rest := rfl
  rw [pieces_cons, if_neg (by simp [isBlank_sign hsymbol]), hfirst]
  simp only [hdrop]

/-- The token of a sign comes in front of those of what stands behind it. -/
theorem tokensOf_sign {c : Char} {t : Token} (hsymbol : Token.ofSymbol? c = some t)
    (rest : List Char) : tokensOf (c :: rest) = (tokensOf rest).map (t :: ·) := by
  rw [tokensOf, tokensOf, pieces_sign hsymbol]
  cases pieces rest <;> rfl

/-- An operator with blanks around it cuts a text in two. -/
theorem tokensOf_operator (op : Operator) {a b : List Char} {w v : List Token}
    (ha : tokensOf a = .ok w) (hb : tokensOf b = .ok v) :
    tokensOf (a ++ ' ' :: op.symbol :: ' ' :: b) = .ok (w ++ .operator op :: v) := by
  have hspace : isBlank ' ' = true := by decide
  -- the first blank is the break; it belongs to the part behind it
  have hbehind : tokensOf (' ' :: op.symbol :: ' ' :: b) = .ok (.operator op :: v) := by
    rw [tokensOf_blank hspace, tokensOf_sign (ofSymbol?_symbol op), tokensOf_blank hspace, hb]
    rfl
  exact tokensOf_append (breaks_blank hspace) ha hbehind

/-- Letters alone are a name. -/
theorem tokensOf_name {name : String} (hne : name.toList ≠ [])
    (hletters : ∀ c ∈ name.toList, c.isAlpha = true) :
    tokensOf name.toList = .ok [.name name] := by
  have hmem : name.toList ∈ Rule.name.language := mem_someOf.2 ⟨hne, hletters⟩
  have hmakes := Rule.Makes.name name.toList
  rw [String.ofList_toList] at hmakes
  exact tokensOf_alone hmem hmakes

theorem tokensOf_literal {text : List Char} {q : Quantity} (h : Literal text q) :
    tokensOf text = .ok [.number q] :=
  tokensOf_alone h.mem (.number h)

/-- The quantity that a run of ASCII digits stands for. -/
def digitsValue (digits : List Char) : Quantity :=
  ⟨Binary64.toFloat (Decimal.rank ⟨Decimal.spelled digits, 0⟩), none, false⟩

theorem tokensOf_digits {text : List Char} (hne : text ≠ [])
    (hdigits : ∀ c ∈ text, c.isDigit = true) : tokensOf text = .ok [.number (digitsValue text)] :=
  tokensOf_literal (.bare (.whole hne hdigits))

end UnitCalc
