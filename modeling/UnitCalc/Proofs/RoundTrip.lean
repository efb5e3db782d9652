import Mathlib
import UnitCalc.Answer
import UnitCalc.Decimal.Lemmas
import UnitCalc.Proofs.Bits
import UnitCalc.Proofs.Composition

/-!
# Answers as expressions

An answer that is a finite number can be used as an expression again. It is shown as a literal,
perhaps with a minus sign in front of it, and no scope has a say in what that means.

* `numberText_toList`: the text of a finite number is a numeral of its rank, and a minus sign for
  every negative number but the zero.
* `ofText_operand`: a literal with or without a minus sign is read as such.
* `reread`: the number that a text stands for. It is the number the text was made from, except that
  the negative zero loses its sign.
* `evaluate_display`: so the answer to the text of an answer is shown in the same way.
-/

namespace UnitCalc

open Binary64 (infinity isSigned rankOf signBit toFloat)

/-! ## What is shown -/

/-- Whether a number is written with a minus sign. -/
def isNegative (x : Float) : Bool := isSigned x && rankOf x != 0

/-- The text of a finite number is a numeral, perhaps behind a minus sign. -/
theorem numberText_toList {x : Float} (hfinite : rankOf x < infinity) :
    ∃ d : Decimal, d.rank = rankOf x ∧
      (numberText x).toList = if isNegative x then '-' :: d.chars else d.chars := by
  have hinfinity : ¬ infinity < rankOf x := Nat.not_lt.2 (Nat.le_of_lt hfinite)
  unfold numberText isNegative
  simp only [hinfinity, Nat.ne_of_lt hfinite, ↓reduceIte]
  -- zero is the one number that is written without its sign
  by_cases hzero : rankOf x = 0
  · refine ⟨⟨0, 0⟩, by rw [hzero]; rfl, ?_⟩
    simp [hzero, Decimal.chars]
  · refine ⟨Decimal.shortest (rankOf x), Decimal.rank_shortest (Nat.le_of_lt hfinite), ?_⟩
    cases isSigned x <;> simp [hzero]

/-- A finite quantity is shown as a literal, perhaps behind a minus sign. -/
theorem text_toList {q : Quantity} (hfinite : rankOf q.magnitude < infinity) :
    ∃ w, Literal w ⟨toFloat (rankOf q.magnitude), q.unit, false⟩ ∧
      q.text.toList = if isNegative q.magnitude then '-' :: w else w := by
  obtain ⟨x, unit, ratio⟩ := q
  obtain ⟨d, hrank, htext⟩ := numberText_toList hfinite
  have hnumeral : Numeral d.chars d := Decimal.numeral_of_ofChars? d.ofChars?_chars
  -- the unit stands behind the numeral in both texts
  cases unit with
  | none =>
    refine ⟨d.chars, hrank ▸ .bare hnumeral, ?_⟩
    simpa [Quantity.text] using htext
  | some unit =>
    refine ⟨d.chars ++ unit.suffix.toList, hrank ▸ .unit hnumeral unit, ?_⟩
    rw [Quantity.text, String.toList_append, htext]
    split <;> rfl

/-- An answer is shown as the text of the quantity that it was made from. -/
theorem display_ofQuantity (q : Quantity) : (Answer.ofQuantity q).display = q.text := by
  obtain ⟨x, unit, ratio⟩ := q
  cases unit with
  | none => cases ratio <;> simp [Answer.ofQuantity, Answer.display, Quantity.text]
  | some unit => rfl

/-! ## What is read -/

/-- A literal, perhaps behind a minus sign, is an expression in every scope. -/
theorem ofText_operand (scope : Scope) {text : String} {a : Operand} {w : List Char}
    (hliteral : Literal w a.value)
    (htext : text.toList = if a.signed then '-' :: w else w) :
    Expr.ofText scope text = .ok a.expr := by
  have hadmitted : Admitted text.toList a.tokens := by
    obtain ⟨signed, value⟩ := a
    -- the sign is a token of its own
    cases signed with
    | false =>
      refine ⟨?_, rfl⟩
      rw [htext]
      exact tokensOf_literal hliteral
    | true =>
      refine ⟨?_, rfl⟩
      rw [htext]
      show tokensOf (Operator.subtract.symbol :: w) = _
      rw [tokensOf_sign (ofSymbol?_symbol .subtract), tokensOf_literal hliteral]
      rfl
  have hoperand : Grammar.Reaches ⟨scope, some nestingLimit⟩ (.operand 1) (a.tokens ++ []) []
      a.expr :=
    .operand (by decide) (by decide) fun _ => Nat.zero_le _
  rw [List.append_nil] at hoperand
  exact ofText_of_admitted hadmitted (.expression (by decide) hoperand (.stop (Nat.le_refl _)))

/-! ## The number that is read back -/

/-- The number that the text of a finite number stands for. -/
def reread (x : Float) : Float := if isNegative x then -(toFloat (rankOf x)) else toFloat (rankOf x)

section Reread

variable {x : Float}

theorem rankOf_negativeZero (hzero : x.toBits = 0x8000000000000000) : rankOf x = 0 := by
  rw [rankOf, hzero]
  rfl

/-- Only the negative zero has a sign and the rank zero. -/
theorem negativeZero_of_rankOf (hsign : isSigned x = true) (hrank : rankOf x = 0) :
    x.toBits = 0x8000000000000000 := by
  have hhigh : signBit ≤ x.toBits.toNat := by simpa [isSigned] using hsign
  have hbound : x.toBits.toNat < 2 ^ 64 := x.toBits.toNat_lt
  rw [rankOf] at hrank
  rw [signBit] at hhigh hrank
  apply UInt64.toNat_inj.1
  show x.toBits.toNat = 0x8000000000000000
  omega

/-- The negative zero is shown without a sign, so it comes back as the positive one. -/
theorem reread_negativeZero (hzero : x.toBits = 0x8000000000000000) : reread x = toFloat 0 := by
  rw [reread, isNegative, rankOf_negativeZero hzero]
  simp

/-- Every other finite number comes back as it was. -/
theorem reread_eq_self (hfinite : rankOf x < infinity) (hzero : x.toBits ≠ 0x8000000000000000) :
    reread x = x := by
  rw [reread, isNegative]
  cases hsign : isSigned x with
  | false => exact Binary64.toFloat_rankOf hsign
  | true =>
    -- with the sign bit, a rank of zero would make it the negative zero
    have hrank : rankOf x ≠ 0 := fun hrank => hzero (negativeZero_of_rankOf hsign hrank)
    simp only [Bool.true_and, bne_iff_ne, hrank, ne_eq, not_false_eq_true, ↓reduceIte]
    exact Binary64.neg_toFloat_rankOf hsign hfinite

theorem toBits_reread (hfinite : rankOf x < infinity) :
    (reread x).toBits = if x.toBits = 0x8000000000000000 then 0 else x.toBits := by
  split
  · rename_i hzero
    rw [reread_negativeZero hzero]
    rfl
  · rename_i hzero
    rw [reread_eq_self hfinite hzero]

/-- What comes back is shown in the same way again. -/
theorem numberText_reread (hfinite : rankOf x < infinity) :
    numberText (reread x) = numberText x := by
  by_cases hzero : x.toBits = 0x8000000000000000
  · -- both zeros are written in the same way
    have htext {y : Float} (hy : rankOf y = 0) : numberText y = "0" := by
      rw [numberText, hy]
      rfl
    rw [reread_negativeZero hzero, htext (rankOf_negativeZero hzero)]
    exact htext rfl
  · rw [reread_eq_self hfinite hzero]

end Reread

theorem eval_operand (q : Quantity) :
    (Operand.expr ⟨isNegative q.magnitude, toFloat (rankOf q.magnitude), q.unit, false⟩).eval =
      .ok ⟨reread q.magnitude, q.unit, false⟩ := by
  unfold Operand.expr reread
  cases isNegative q.magnitude <;> rfl

/-! ## Answers -/

/-- The quantity that the text of an expression stands for. -/
def valueOf (scope : Scope) (text : String) : Except Fault Quantity := do
  (← Expr.ofText scope text).eval

/-- An answer is made from the quantity that the text stands for. -/
theorem evaluate_eq (scope : Scope) (text : String) :
    evaluate scope text = (valueOf scope text).map Answer.ofQuantity := by
  unfold evaluate valueOf
  cases Expr.ofText scope text with
  | error fault => rfl
  | ok e => cases h : e.eval <;> simp [h, bind, Except.bind, Except.map, pure, Except.pure]

/-- The text of a finite quantity stands for that quantity, in every scope. -/
theorem valueOf_text {q : Quantity} (hfinite : rankOf q.magnitude < infinity) (scope : Scope) :
    valueOf scope q.text = .ok ⟨reread q.magnitude, q.unit, false⟩ := by
  obtain ⟨w, hliteral, htext⟩ := text_toList hfinite
  have hparse := ofText_operand scope (a := ⟨isNegative q.magnitude, _⟩) hliteral htext
  rw [valueOf, hparse]
  exact eval_operand q

/-- An answer that is a finite number is an expression that evaluates to what it shows, in every
scope: a number with the same bits, except that the negative zero comes back as the positive one,
and with the same unit. An answer without a unit comes back as a number. -/
theorem evaluate_display {scope : Scope} {text : String} {r : Answer}
    (h : evaluate scope text = .ok r) :
    ∃ q, valueOf scope text = .ok q ∧ r = Answer.ofQuantity q ∧
      (q.magnitude.isFinite = true → ∀ other : Scope, ∃ q' r',
        valueOf other r.display = .ok q' ∧ r' = Answer.ofQuantity q' ∧
          evaluate other r.display = .ok r' ∧ r'.display = r.display ∧
            q'.magnitude.toBits =
              (if q.magnitude.toBits = 0x8000000000000000 then 0 else q.magnitude.toBits) ∧
            q'.unit = q.unit ∧ (q.unit = none → r' = .number q'.magnitude)) := by
  rw [evaluate_eq] at h
  obtain ⟨q, hvalue, rfl⟩ := exists_of_map_eq_ok h
  refine ⟨q, hvalue, rfl, fun hfinite other => ?_⟩
  -- the text of the answer is read back; the rest compares what was read with what was shown
  have hrank : rankOf q.magnitude < infinity := Binary64.isFinite_iff.1 hfinite
  have hread := valueOf_text hrank other
  rw [display_ofQuantity]
  refine ⟨_, _, hread, rfl, ?_, ?_, toBits_reread hrank, rfl, fun hunit => ?_⟩
  · rw [evaluate_eq, hread]
    rfl
  · rw [display_ofQuantity, Quantity.text, Quantity.text, numberText_reread hrank]
  · rw [Answer.ofQuantity, hunit]
    rfl

/-- The one number whose bits do not come back. -/
theorem evaluate_display_negativeZero :
    let zero : Float := Float.ofBits 0x8000000000000000
    evaluate (fun _ => some (.constant zero)) "x" = .ok (.number zero) ∧
      ∃ q', valueOf Scope.math (numberText zero) = .ok q' ∧ q'.magnitude.toBits = 0 ∧
        evaluate Scope.math (numberText zero) = .ok (.number q'.magnitude) := by
  intro zero
  let scope : Scope := fun _ => some (.constant zero)
  have hvalue : valueOf scope "x" = .ok ⟨zero, none, false⟩ := by cbv
  have hanswer : evaluate scope "x" = .ok (.number zero) := by
    rw [evaluate_eq, hvalue]
    rfl
  have hfinite : zero.isFinite = true := by
    rw [Binary64.isFinite_iff, rankOf_negativeZero rfl]
    decide
  obtain ⟨q, hq, -, hreread⟩ := evaluate_display hanswer
  obtain rfl : q = ⟨zero, none, false⟩ := Except.ok.inj (hq.symm.trans hvalue)
  obtain ⟨q', r', hvalue', -, hanswer', -, hbits, -, hnumber⟩ := hreread hfinite Scope.math
  refine ⟨hanswer, q', hvalue', ?_, ?_⟩
  · rw [hbits]
    rfl
  · rw [← hnumber rfl]
    exact hanswer'

end UnitCalc
