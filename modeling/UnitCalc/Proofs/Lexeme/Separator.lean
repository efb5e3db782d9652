import Mathlib
import UnitCalc.Lexeme.Tokenize
import UnitCalc.Text.Runs

/-!
# Where a text falls apart

No lexeme runs on over a character that is neither a letter nor a digit, nor a point or a percent
sign. Such a character *breaks* a text: what stands in front of it is cut into pieces as if the text
ended there, and the cutting starts afresh with the character itself (`pieces_append`). Blanks,
operators and parentheses are of this sort.

The recursions that find the longest lexeme are followed one by one: `numeralRun`, `suffixRun`,
`numberRun` and `firstLexeme` find the same in front of a break as at the end of a text.
-/

namespace UnitCalc

/-! ## Characters -/

/-- No lexeme goes on with this character. -/
structure Breaks (c : Char) : Prop where
  alphanum : c.isAlphanum = false
  digit : isDecimalDigit c = false
  point : c ≠ '.'
  percent : c ≠ '%'

theorem Breaks.alpha {c : Char} (hc : Breaks c) : c.isAlpha = false := by
  have h := hc.alphanum
  rw [Char.isAlphanum, Bool.or_eq_false_iff] at h
  exact h.1

/-- Below the digits of the next script, only the ASCII digits are digits. -/
theorem isDecimalDigit_eq_false {c : Char}
    (h : c.toNat < 0x30 ∨ 0x3A ≤ c.toNat ∧ c.toNat < 0x660) : isDecimalDigit c = false := by
  -- the digits of a script are ten in a row, and the table has the first of each row
  have hzeros : ∀ first ∈ decimalZeros, first = 0x30 ∨ 0x660 ≤ first := by decide
  rw [isDecimalDigit, List.any_eq_false]
  intro first hmem
  have := hzeros first hmem
  rw [Bool.and_eq_true, decide_eq_true_eq, decide_eq_true_eq]
  omega

/-- The characters that are lexemes of their own. -/
theorem mem_signs {c : Char} {t : Token} (h : Token.ofSymbol? c = some t) :
    c ∈ ['(', ')', '+', '-', '*', '/', '^'] := by
  unfold Token.ofSymbol? at h
  split at h
  · rename_i hc
    simp [hc]
  · split at h
    · rename_i hc
      simp [hc]
    · obtain ⟨op, hfind, -⟩ := Option.map_eq_some_iff.1 h
      have hop := List.find?_some hfind
      rw [beq_iff_eq] at hop
      rw [← hop]
      cases op <;> decide

theorem breaks_sign {c : Char} {t : Token} (h : Token.ofSymbol? c = some t) : Breaks c := by
  have hsigns : ∀ a ∈ ['(', ')', '+', '-', '*', '/', '^'],
      a.isAlphanum = false ∧ (a.toNat < 0x30 ∨ 0x3A ≤ a.toNat ∧ a.toNat < 0x660) ∧
        a ≠ '.' ∧ a ≠ '%' := by simp
  obtain ⟨halphanum, hcode, hpoint, hpercent⟩ := hsigns c (mem_signs h)
  exact ⟨halphanum, isDecimalDigit_eq_false hcode, hpoint, hpercent⟩

theorem ofSymbol?_symbol (op : Operator) : Token.ofSymbol? op.symbol = some (.operator op) := by
  cases op <;> decide

/-- The printable characters of ASCII text are no blanks. -/
theorem isBlank_eq_false {c : Char} (h : 0x21 ≤ c.toNat ∧ c.toNat < 0x85) : isBlank c = false := by
  have hranges : ∀ range ∈ blankRanges, range.2 < 0x21 ∨ 0x85 ≤ range.1 := by decide
  rw [isBlank, List.any_eq_false]
  intro range hmem
  have := hranges range hmem
  rw [Bool.and_eq_true, decide_eq_true_eq, decide_eq_true_eq]
  omega

theorem isBlank_sign {c : Char} {t : Token} (h : Token.ofSymbol? c = some t) :
    isBlank c = false := by
  have hsigns : ∀ a ∈ ['(', ')', '+', '-', '*', '/', '^'],
      0x21 ≤ a.toNat ∧ a.toNat < 0x85 := by simp
  exact isBlank_eq_false (hsigns c (mem_signs h))

/-- No letter and no digit is a blank. -/
theorem isBlank_of_isAlphanum {c : Char} (h : c.isAlphanum = true) : isBlank c = false := by
  have hcode : (65 ≤ c.toNat ∧ c.toNat ≤ 90 ∨ 97 ≤ c.toNat ∧ c.toNat ≤ 122) ∨
      48 ≤ c.toNat ∧ c.toNat ≤ 57 := by
    simpa [Char.isAlphanum, Char.isAlpha, Char.isUpper, Char.isLower, Char.isDigit,
      UInt32.le_iff_toNat_le] using h
  exact isBlank_eq_false (by omega)

/-- Blanks break a text. Letters lie among the printable characters, and no digit of any script is a
blank. -/
theorem breaks_blank {c : Char} (h : isBlank c = true) : Breaks c where
  alphanum := by
    rw [Bool.eq_false_iff]
    intro halphanum
    rw [isBlank_of_isAlphanum halphanum] at h
    exact absurd h (by simp)
  digit := by
    -- no run of ten digits meets a range of blanks
    have hapart : ∀ range ∈ blankRanges, ∀ first ∈ decimalZeros,
        range.2 < first ∨ first + 10 ≤ range.1 := by decide
    obtain ⟨range, hrange, hc⟩ := List.any_eq_true.1 h
    rw [Bool.and_eq_true, decide_eq_true_eq, decide_eq_true_eq] at hc
    rw [isDecimalDigit, List.any_eq_false]
    intro first hfirst
    have := hapart range hrange first hfirst
    rw [Bool.and_eq_true, decide_eq_true_eq, decide_eq_true_eq]
    omega
  point := by
    rintro rfl
    exact absurd h (by decide)
  percent := by
    rintro rfl
    exact absurd h (by decide)

/-! ## The number rule -/

theorem isPrefix_numeralRun (text : List Char) : numeralRun text <+: text := by
  have hsplit := List.takeWhile_append_dropWhile (p := isDecimalDigit) (l := text)
  unfold numeralRun
  split
  · rename_i rest hdrop
    dsimp only
    split
    · exact List.nil_prefix
    · rw [hdrop] at hsplit
      conv_rhs => rw [← hsplit]
      rw [List.prefix_append_right_inj, List.cons_prefix_cons]
      exact ⟨rfl, List.takeWhile_prefix _⟩
  · exact List.takeWhile_prefix _

/-- A numeral ends in front of a break at the latest, and the break does not make it shorter. -/
theorem numeralRun_break {c : Char} (hc : Breaks c) (text rest : List Char) :
    numeralRun (text ++ c :: rest) = numeralRun text := by
  unfold numeralRun
  rw [takeWhile_break _ _ hc.digit, dropWhile_break _ _ hc.digit]
  -- behind the whole part stands the break, or a character of the text
  cases hdrop : text.dropWhile isDecimalDigit with
  | nil =>
    rw [List.nil_append]
    split
    · rename_i heq
      exact absurd (List.cons.inj heq).1 hc.point
    · rfl
  | cons a tail =>
    rw [List.cons_append]
    -- a point of the text may have a fraction behind it
    by_cases ha : a = '.'
    · -- the fraction ends in front of the break, too
      subst ha
      simp only [takeWhile_break _ _ hc.digit]
    · split
      · rename_i heq
        exact absurd (List.cons.inj heq).1 ha
      · split
        · rename_i heq
          exact absurd (List.cons.inj heq).1 ha
        · rfl

theorem isPrefix_suffixRun (text : List Char) : suffixRun text <+: text := by
  unfold suffixRun
  split
  · exact List.nil_prefix
  · split
    · rw [List.cons_prefix_cons]
      exact ⟨rfl, List.takeWhile_prefix _⟩
    · exact List.nil_prefix

theorem suffixRun_break {c : Char} (hc : Breaks c) (text rest : List Char) :
    suffixRun (text ++ c :: rest) = suffixRun text := by
  cases text with
  | nil =>
    rw [List.nil_append, suffixRun, suffixRun, if_neg]
    simp [hc.alpha, hc.percent]
  | cons a tail => rw [List.cons_append, suffixRun, suffixRun, takeWhile_break _ _ hc.alphanum]

theorem isPrefix_numberRun (text : List Char) : numberRun text <+: text := by
  have hnumeral := isPrefix_numeralRun text
  unfold numberRun
  dsimp only
  split
  · exact List.nil_prefix
  · -- the suffix is found behind the numeral
    have hsplit : numeralRun text ++ text.drop (numeralRun text).length = text := by
      conv_lhs => rw [List.prefix_iff_eq_take.1 hnumeral]
      rw [List.length_take_of_le hnumeral.length_le, List.take_append_drop]
    conv_rhs => rw [← hsplit]
    rw [List.prefix_append_right_inj]
    exact isPrefix_suffixRun _

theorem numberRun_break {c : Char} (hc : Breaks c) (text rest : List Char) :
    numberRun (text ++ c :: rest) = numberRun text := by
  have hlen := (isPrefix_numeralRun text).length_le
  unfold numberRun
  simp only [numeralRun_break hc]
  -- the numeral lies inside the text, so the suffix is looked for in front of the break
  rw [List.drop_append_of_le_length hlen, suffixRun_break hc]

/-! ## The first lexeme -/

/-- A break does not change the first lexeme in front of it. -/
theorem firstLexeme_break {c : Char} (hc : Breaks c) (a : Char) (text rest : List Char) :
    firstLexeme a (text ++ c :: rest) = firstLexeme a text := by
  have hnumber : numberRun (a :: (text ++ c :: rest)) = numberRun (a :: text) :=
    numberRun_break hc (a :: text) rest
  unfold firstLexeme
  simp only [takeWhile_break _ _ hc.alpha, hnumber]

theorem isPrefix_firstLexeme {a : Char} {text chars : List Char} {t : Token}
    (h : firstLexeme a text = .ok (t, chars)) : chars <+: a :: text := by
  have hnumber := isPrefix_numberRun (a :: text)
  unfold firstLexeme at h
  -- a name, a sign or a number, in the order of the tokenizer
  split at h
  · cases h
    rw [List.cons_prefix_cons]
    exact ⟨rfl, List.takeWhile_prefix _⟩
  · split at h
    · cases h
      rw [List.cons_prefix_cons]
      exact ⟨rfl, List.nil_prefix⟩
    · dsimp only at h
      split at h
      · exact absurd h (by simp)
      · split at h
        · cases h
          exact hnumber
        · exact absurd h (by simp)

/-! ## The pieces -/

/-- In front of a break a text is cut like a text of its own, and behind it like another one. -/
theorem pieces_append {c : Char} (hc : Breaks c) (a b : List Char) :
    pieces (a ++ c :: b) =
      (pieces a).bind fun before => (pieces (c :: b)).map fun behind => before ++ behind := by
  -- the induction is on the length, since a piece takes away more than one character
  induction hlen : a.length using Nat.strongRecOn generalizing a with
  | ind n ih =>
    cases a with
    | nil =>
      rw [List.nil_append, pieces_nil]
      cases pieces (c :: b) <;> rfl
    | cons x text =>
      -- the first piece of both texts is the same, and what it leaves is shorter
      rw [List.cons_append, pieces_cons, pieces_cons]
      by_cases hx : isBlank x = true
      · rw [if_pos hx, if_pos hx, ih text.length (by rw [← hlen]; simp) text rfl]
        cases pieces text with
        | error fault => rfl
        | ok before => cases pieces (c :: b) <;> rfl
      · rw [if_neg hx, if_neg hx, firstLexeme_break hc]
        cases hfirst : firstLexeme x text with
        | error fault => rfl
        | ok found =>
          obtain ⟨t, chars⟩ := found
          have hle := (isPrefix_firstLexeme hfirst).length_le
          rw [List.length_cons] at hle hlen
          have hdrop : (text ++ c :: b).drop (chars.length - 1) =
              text.drop (chars.length - 1) ++ c :: b :=
            List.drop_append_of_le_length (by omega)
          have hshort : (text.drop (chars.length - 1)).length < n := by
            rw [List.length_drop]
            omega
          simp only [hdrop, ih _ hshort _ rfl]
          cases pieces (text.drop (chars.length - 1)) with
          | error fault => rfl
          | ok before => cases pieces (c :: b) <;> rfl

end UnitCalc
