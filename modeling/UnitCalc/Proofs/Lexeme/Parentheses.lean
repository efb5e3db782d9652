import Mathlib
import UnitCalc.Lexeme.Arrangement

/-!
# Well-arranged sequences

A sequence of tokens is `Arranged` if it has no structural fault. Each of the three checks looks at
neighbours or counts parentheses, so each of them can be made on the two sides of a parenthesis
separately:

* `hasAdjacentNumbers_append`, `operatorFault?_append`: a pair of tokens lies on one side of the
  parenthesis, or the parenthesis is one of the pair and there is no fault in it.
* `parenthesisFault?_append`: a part whose parentheses pair up can be passed over, at any number of
  open ones.

`Arranged.around` puts them together: an arranged sequence in parentheses may stand wherever two
arranged sequences meet.
-/

namespace UnitCalc

/-- There is no structural fault in the sequence. -/
def Arranged (w : List Token) : Prop := arrangementFault? w = none

/-- A sequence is arranged if none of the three checks finds a fault. -/
theorem arranged_iff {w : List Token} :
    Arranged w ↔
      hasAdjacentNumbers w = false ∧ operatorFault? w = none ∧ parenthesisFault? 0 w = none := by
  unfold Arranged arrangementFault?
  split
  · rename_i hnumbers
    simp [hnumbers]
  · rename_i hnumbers
    rw [Option.or_eq_none_iff]
    simp [hnumbers]

theorem checkArrangement_eq_ok {lexemes : List Lexeme} :
    checkArrangement lexemes = .ok ⟨⟩ ↔ Arranged (lexemes.map Lexeme.token) := by
  unfold checkArrangement Arranged
  cases arrangementFault? (lexemes.map Lexeme.token) with
  | none => simp
  | some fault => simp

/-! ## Pairs of neighbours -/

section Neighbours

variable {t : Token}

theorem hasAdjacentNumbers_cons (ht : t.isNumber = false) (v : List Token) :
    hasAdjacentNumbers (t :: v) = hasAdjacentNumbers v := by
  cases v with
  | nil => rfl
  | cons b v => rw [hasAdjacentNumbers, ht, Bool.false_and, Bool.false_or]

/-- A token that is no number cuts the pairs of numbers in two. -/
theorem hasAdjacentNumbers_append (ht : t.isNumber = false) (w v : List Token) :
    hasAdjacentNumbers (w ++ t :: v) = (hasAdjacentNumbers w || hasAdjacentNumbers v) := by
  induction w with
  | nil =>
    rw [List.nil_append, hasAdjacentNumbers_cons ht]
    rfl
  | cons a w ih =>
    cases w with
    | nil =>
      -- the number in front of `t` has no number behind it
      show hasAdjacentNumbers (a :: t :: v) = _
      rw [hasAdjacentNumbers, ht, Bool.and_false, Bool.false_or, hasAdjacentNumbers_cons ht]
      rfl
    | cons b w =>
      show hasAdjacentNumbers (a :: b :: (w ++ t :: v)) = _
      rw [hasAdjacentNumbers, hasAdjacentNumbers, Bool.or_assoc, ← ih]
      rfl

/-- Only between two operators there may be a fault. -/
theorem operatorPairFault?_eq_none {a b : Token}
    (h : a.isOperator = false ∨ b.isOperator = false) : operatorPairFault? a b = none := by
  unfold operatorPairFault?
  split
  · exact absurd h (by simp [Token.isOperator])
  · rfl
  · exact absurd h (by simp [Token.isOperator])
  · rfl

theorem operatorFault?_cons (ht : t.isOperator = false) (v : List Token) :
    operatorFault? (t :: v) = operatorFault? v := by
  cases v with
  | nil => rfl
  | cons b v =>
    rw [operatorFault?]
    simp only [operatorPairFault?_eq_none (.inl ht)]

theorem operatorFault?_cons_cons {a : Token} (ht : t.isOperator = false) (v : List Token) :
    operatorFault? (a :: t :: v) = operatorFault? (t :: v) := by
  rw [operatorFault?]
  simp only [operatorPairFault?_eq_none (.inr ht)]

/-- A token that is no operator cuts the pairs of operators in two. -/
theorem operatorFault?_append (ht : t.isOperator = false) (w v : List Token) :
    operatorFault? (w ++ t :: v) = (operatorFault? w).or (operatorFault? v) := by
  induction w with
  | nil =>
    rw [List.nil_append, operatorFault?_cons ht]
    rfl
  | cons a w ih =>
    cases w with
    | nil =>
      show operatorFault? (a :: t :: v) = _
      rw [operatorFault?_cons_cons ht, operatorFault?_cons ht]
      rfl
    | cons b w =>
      show operatorFault? (a :: b :: (w ++ t :: v)) = _
      rw [operatorFault?, operatorFault?]
      cases operatorPairFault? a b with
      | some fault => rfl
      | none => exact ih

end Neighbours

/-! ## Parentheses -/

/-- A part whose parentheses pair up leaves open what was open in front of it. -/
theorem parenthesisFault?_append {opened : Nat} {w : List Token} (k : Nat) (v : List Token)
    (hw : parenthesisFault? opened w = none) :
    parenthesisFault? (opened + k) (w ++ v) = parenthesisFault? k v := by
  induction w generalizing opened with
  | nil =>
    -- nothing is left open behind `w`
    have hopened : opened = 0 := by
      rw [parenthesisFault?] at hw
      simpa using hw
    rw [hopened, Nat.zero_add, List.nil_append]
  | cons t w ih =>
    rw [List.cons_append]
    cases t with
    | openParen =>
      rw [parenthesisFault?] at hw ⊢
      rw [Nat.add_right_comm]
      exact ih hw
    -- the parenthesis that is closed was opened in this part, so `k` of them stay open
    | closeParen =>
      rw [parenthesisFault?] at hw ⊢
      split at hw
      · exact absurd hw (by simp)
      · rename_i hopened
        rw [if_neg (by omega), show opened + k - 1 = opened - 1 + k by omega]
        exact ih hw
    | number | name | operator | endOfInput =>
      rw [parenthesisFault?] at hw ⊢
      · exact ih hw
      all_goals simp

/-- Parts whose parentheses pair up may stand in front of, in and behind a pair of parentheses. -/
theorem parenthesisFault?_around {x w y : List Token} (hx : parenthesisFault? 0 x = none)
    (hw : parenthesisFault? 0 w = none) (hy : parenthesisFault? 0 y = none) :
    parenthesisFault? 0 (x ++ .openParen :: (w ++ .closeParen :: y)) = none := by
  -- the first part is passed over with none open, the second one with one open
  have hpass := parenthesisFault?_append 0 (.openParen :: (w ++ .closeParen :: y)) hx
  have hinside := parenthesisFault?_append 1 (.closeParen :: y) hw
  rw [hpass, parenthesisFault?, hinside, parenthesisFault?, if_neg Nat.one_ne_zero]
  exact hy

/-! ## The composition -/

/-- An arranged sequence in parentheses may stand wherever two arranged sequences meet. -/
theorem Arranged.around {x w y : List Token} (hx : Arranged x) (hw : Arranged w)
    (hy : Arranged y) : Arranged (x ++ .openParen :: (w ++ .closeParen :: y)) := by
  rw [arranged_iff] at hx hw hy ⊢
  obtain ⟨hxnum, hxop, hxpar⟩ := hx
  obtain ⟨hwnum, hwop, hwpar⟩ := hw
  obtain ⟨hynum, hyop, hypar⟩ := hy
  -- no parenthesis is a number or an operator, so both of them cut the pairs
  refine ⟨?_, ?_, parenthesisFault?_around hxpar hwpar hypar⟩
  · rw [hasAdjacentNumbers_append rfl, hasAdjacentNumbers_append rfl, hxnum, hwnum, hynum]
    rfl
  · rw [operatorFault?_append rfl, operatorFault?_append rfl, hxop, hwop, hyop]
    rfl

end UnitCalc
