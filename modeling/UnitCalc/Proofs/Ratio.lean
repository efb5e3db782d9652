import Mathlib
import UnitCalc.Proofs.RoundTrip
import UnitCalc.Proofs.Units
import UnitCalc.Proofs.Written.Tokens

/-!
# The mark of a ratio

A quotient in which two equal units cancelled carries a mark. The mark decides how an answer is
shown and nothing else, and it does not last: whatever is done to a marked quantity makes one
without a mark.

* `Expr.cancels_of_ratio`: so the value of an expression is marked only by its root, which is a
  division in which units cancel, or a literal that was marked from the start.
* `Expr.eval_unmarked`: the marks of literals below the root have no effect.
* `not_suffix_numberText`: the text of a number never looks as if it had a unit, so the three sorts
  of answers are told apart by what they show.
-/

namespace UnitCalc

/-! ## Where marks come from -/

/-- The root is a quotient of two values of the same unit. -/
def Expr.Cancels (e : Expr) : Prop :=
  ∃ left right a b unit, e = .binary .divide left right ∧ left.eval = .ok a ∧ right.eval = .ok b ∧
    a.unit = some unit ∧ b.unit = some unit

/-- A quotient in which units cancel has a value, and it is marked. -/
theorem Expr.Cancels.eval_eq {e : Expr} (h : e.Cancels) : ∃ x, e.eval = .ok ⟨x, none, true⟩ := by
  obtain ⟨left, right, a, b, unit, rfl, hleft, hright, ha, hb⟩ := h
  refine ⟨a.magnitude / b.magnitude, ?_⟩
  rw [eval, hleft, hright]
  show Quantity.div a b = _
  rw [Quantity.div, ha, hb]
  exact if_pos rfl

/-- An operation makes a mark only by dividing two values of the same unit. -/
theorem Operator.cancels_of_ratio {op : Operator} {a b v : Quantity} (h : op.apply a b = .ok v)
    (hratio : v.ratio = true) :
    op = .divide ∧ ∃ unit, a.unit = some unit ∧ b.unit = some unit := by
  rw [op.apply_eq] at h
  obtain ⟨⟨unit, ratio⟩, hkind, rfl⟩ := exists_of_map_eq_ok h
  obtain rfl : ratio = true := hratio
  -- the mark comes from the units alone, so the magnitudes can be forgotten
  generalize a.unit = u, b.unit = w at hkind
  cases op with
  | add | subtract =>
    rw [kind] at hkind
    split at hkind <;> cases hkind
  | multiply | power => cases u <;> cases w <;> cases hkind
  | divide =>
    cases w with
    | none => cases hkind
    | some unit =>
      rw [kind] at hkind
      split at hkind
      · rename_i hunit
        exact ⟨rfl, unit, hunit, rfl⟩
      · cases hkind

/-- A value is marked only if units cancelled at the root, or the root is a marked literal. -/
theorem Expr.cancels_of_ratio {e : Expr} {v : Quantity} (h : e.eval = .ok v)
    (hroot : ∀ q, e = .literal q → q.ratio = false) (hratio : v.ratio = true) : e.Cancels := by
  -- a mark at the root is one of a literal or of a division; all other nodes make their values
  -- without one
  cases e with
  | literal q =>
    cases h
    rw [hroot v rfl] at hratio
    cases hratio
  | identifier id =>
    obtain ⟨name, binding⟩ := id
    cases binding with
    | constant value =>
      cases h
      cases hratio
    | function f => cases h
  | binary op left right =>
    obtain ⟨a, hleft, h⟩ := exists_of_bind_eq_ok h
    obtain ⟨b, hright, h⟩ := exists_of_bind_eq_ok h
    obtain ⟨rfl, unit, ha, hb⟩ := Operator.cancels_of_ratio h hratio
    exact ⟨left, right, a, b, unit, rfl, hleft, hright, ha, hb⟩
  | call callee argument =>
    obtain ⟨a, hargument, h⟩ := exists_of_bind_eq_ok h
    obtain ⟨name, binding⟩ := callee
    cases binding with
    | constant value => cases h
    | function f =>
      cases h
      cases hratio
  | negate operand =>
    obtain ⟨a, hoperand, h⟩ := exists_of_bind_eq_ok h
    cases h
    cases hratio

/-! ## Marks below the root -/

/-- The quantity without its mark. -/
def Quantity.unmarked (q : Quantity) : Quantity := { q with ratio := false }

/-- The expression with the marks of its literals taken away. -/
def Expr.unmarked : Expr → Expr
  | literal value => literal value.unmarked
  | identifier id => identifier id
  | binary op left right => binary op left.unmarked right.unmarked
  | call callee argument => call callee argument.unmarked
  | negate operand => negate operand.unmarked

/-- No operation looks at the marks of its operands. -/
theorem Operator.apply_unmarked_left (op : Operator) (a : Quantity) :
    op.apply a.unmarked = op.apply a := by
  funext b
  rw [op.apply_eq, op.apply_eq]
  rfl

theorem Operator.apply_unmarked_right (op : Operator) (a b : Quantity) :
    op.apply a b.unmarked = op.apply a b := by
  rw [op.apply_eq, op.apply_eq]
  rfl

theorem Identifier.apply_unmarked (id : Identifier) (a : Quantity) :
    id.apply a.unmarked = id.apply a := by
  rw [id.apply_eq, id.apply_eq]
  rfl

namespace Expr

/-- The operand of an operation may be a literal, and only then its own mark matters. -/
theorem bind_unmarked {α : Type} {e : Expr} {next : Quantity → Except Fault α}
    (h : (∀ q, e ≠ .literal q) → e.unmarked.eval = e.eval)
    (hnext : ∀ q, next q.unmarked = next q) : e.unmarked.eval >>= next = e.eval >>= next := by
  cases e with
  | literal q => exact hnext q
  | identifier | binary | call | negate => rw [h (by simp)]

/-- The marks of the literals below the root can be taken away. -/
theorem eval_unmarked {e : Expr} (h : ∀ q, e ≠ .literal q) : e.unmarked.eval = e.eval := by
  induction e with
  | literal q => exact absurd rfl (h q)
  | identifier id => rfl
  | binary op left right ihl ihr =>
    have hright (a : Quantity) : right.unmarked.eval >>= op.apply a = right.eval >>= op.apply a :=
      bind_unmarked ihr (op.apply_unmarked_right a)
    -- the right side is unmarked behind every value of the left one, then the left side itself
    show left.unmarked.eval >>= (fun a => right.unmarked.eval >>= op.apply a) =
      left.eval >>= fun a => right.eval >>= op.apply a
    simp only [hright]
    exact bind_unmarked ihl fun a => by rw [op.apply_unmarked_left]
  | call callee argument ih => exact bind_unmarked ih callee.apply_unmarked
  | negate operand ih => exact bind_unmarked ih fun a => rfl

/-- Trees that differ only in the marks of literals below the root have the same result. -/
theorem eval_eq_of_unmarked_eq {e f : Expr} (hroot : ∀ q, e ≠ .literal q)
    (h : e.unmarked = f.unmarked) : e.eval = f.eval := by
  have hroot' : ∀ q, f ≠ .literal q := by
    rintro q rfl
    cases e with
    | literal q' => exact hroot q' rfl
    | identifier | binary | call | negate => cases h
  rw [← eval_unmarked hroot, h, eval_unmarked hroot']

end Expr

/-! ## Trees that were read -/

/-- No literal of a text is marked. -/
theorem ratio_eq_false_of_readable {scope : Scope} {e : Expr} (h : Readable scope e) :
    ∀ q, .literal q ∈ e.postorder → q.ratio = false := by
  induction h with
  | literal hspelled =>
    obtain ⟨w, hliteral⟩ := hspelled
    intro q hq
    cases List.mem_singleton.1 hq
    exact hliteral.ratio_eq_false
  | identifier => simp [Expr.postorder]
  | @binary op left right _ _ ihl ihr =>
    intro q hq
    have hsides : .literal q ∈ left.postorder ∨ .literal q ∈ right.postorder := by
      simpa [Expr.postorder] using hq
    exact hsides.elim (ihl q) (ihr q)
  | call _ _ _ ih | negate _ ih => exact fun q hq => ih q (by simpa [Expr.postorder] using hq)

/-! ## What answers look like -/

theorem not_suffix_infinity (sign : Bool) (unit : CssUnit) :
    ¬ unit.suffix.toList <:+ ((if sign then "-" else "") ++ "Infinity").toList := by
  cases sign <;> cases unit <;> decide

/-- A finite number is written with digits, a point and a sign, and a unit begins with none of
these. -/
theorem not_suffix_finite {d : Decimal} {w : List Char} (hw : w = d.chars ∨ w = '-' :: d.chars)
    (unit : CssUnit) : ¬ unit.suffix.toList <:+ w := by
  have hnumeral := (Decimal.numeral_of_ofChars? d.ofChars?_chars).isNumeral
  have hchars : ∀ c ∈ w, Quantity.isNumeral c = true ∨ c = '-' := by
    rcases hw with rfl | rfl
    · exact fun c hc => .inl (hnumeral c hc)
    · exact List.forall_mem_cons.2 ⟨.inr rfl, fun c hc => .inl (hnumeral c hc)⟩
  intro hsuffix
  have hfirst : ∃ c ∈ unit.suffix.toList, Quantity.isNumeral c = false ∧ c ≠ '-' := by
    cases unit <;> exact ⟨_, List.mem_of_mem_head? rfl, by decide⟩
  obtain ⟨c, hc, hno, hsign⟩ := hfirst
  rcases hchars c (hsuffix.subset hc) with hyes | hminus
  · rw [hyes] at hno
    cases hno
  · exact hsign hminus

/-- No number is written with the suffix of a unit at its end. -/
theorem not_suffix_numberText (x : Float) (unit : CssUnit) :
    ¬ unit.suffix.toList <:+ (numberText x).toList := by
  -- below infinity are the finite numbers, above it those that are none
  rcases Nat.lt_trichotomy (Binary64.rankOf x) Binary64.infinity with hfinite | hinfinite | hnan
  · obtain ⟨d, -, htext⟩ := numberText_toList hfinite
    refine not_suffix_finite (d := d) ?_ unit
    rw [htext]
    cases isNegative x
    · exact .inl rfl
    · exact .inr rfl
  · rw [numberText]
    simp only [hinfinite, lt_irrefl, ↓reduceIte]
    exact not_suffix_infinity _ unit
  · rw [numberText]
    simp only [hnan, ↓reduceIte]
    cases unit <;> decide

theorem Quantity.suffix_text {q : Quantity} {unit : CssUnit} (hunit : q.unit = some unit) :
    unit.suffix.toList <:+ q.text.toList := by
  rw [Quantity.text, hunit, String.toList_append]
  exact List.suffix_append _ _

namespace Answer

/-- A text that does not end in a unit. -/
def IsBareText : Answer → Prop
  | number _ => False
  | text shown => ∀ unit : CssUnit, ¬ unit.suffix.toList <:+ shown.toList

/-- A text that ends in a unit. -/
def EndsInUnit : Answer → Prop
  | number _ => False
  | text shown => ∃ unit : CssUnit, unit.suffix.toList <:+ shown.toList

/-- A text without a unit is the answer for the quantities with a mark. -/
theorem isBareText_ofQuantity (q : Quantity) :
    (ofQuantity q).IsBareText ↔ q.unit = none ∧ q.ratio = true := by
  unfold ofQuantity
  cases hunit : q.unit with
  | some unit => simpa [IsBareText] using ⟨unit, Quantity.suffix_text hunit⟩
  | none =>
    cases q.ratio with
    | false => simp [IsBareText]
    | true => simpa [IsBareText] using not_suffix_numberText q.magnitude

/-- A text that ends in a unit is the answer for the quantities with one. -/
theorem endsInUnit_ofQuantity (q : Quantity) : (ofQuantity q).EndsInUnit ↔ q.unit ≠ none := by
  unfold ofQuantity
  cases hunit : q.unit with
  | some unit => simpa [EndsInUnit] using ⟨unit, Quantity.suffix_text hunit⟩
  | none =>
    cases q.ratio with
    | false => simp [EndsInUnit]
    | true => simpa [EndsInUnit] using not_suffix_numberText q.magnitude

/-- A number is the answer for all others. -/
theorem ofQuantity_eq_number {q : Quantity} {x : Float} :
    ofQuantity q = .number x ↔ q.unit = none ∧ q.ratio = false ∧ q.magnitude = x := by
  unfold ofQuantity
  cases q.unit with
  | some unit => simp
  | none => cases q.ratio <;> simp

end Answer

/-! ## Answers to texts -/

section Texts

variable {scope : Scope} {text : String} {e : Expr} {q v : Quantity}

theorem evaluate_of_eval (hread : Expr.ofText scope text = .ok e) (hvalue : e.eval = .ok q) :
    evaluate scope text = .ok (Answer.ofQuantity q) := by
  rw [evaluate, hread]
  simp only [bind, Except.bind, hvalue]
  rfl

/-- What is said about the answer to a text can be said about the value of its expression. -/
theorem exists_evaluate_iff {P : Answer → Prop} :
    (∃ r, evaluate scope text = .ok r ∧ P r) ↔
      ∃ e q, Expr.ofText scope text = .ok e ∧ e.eval = .ok q ∧ P (Answer.ofQuantity q) := by
  constructor
  · rintro ⟨r, h, hr⟩
    obtain ⟨e, hread, h⟩ := exists_of_bind_eq_ok h
    obtain ⟨q, hvalue, h⟩ := exists_of_bind_eq_ok h
    cases h
    exact ⟨e, q, hread, hvalue, hr⟩
  · rintro ⟨e, q, hread, hvalue, hr⟩
    exact ⟨_, evaluate_of_eval hread hvalue, hr⟩

/-- Without marks in the literals, a mark means that units cancelled at the root. -/
theorem Expr.ratio_iff (hunmarked : ∀ q, .literal q ∈ e.postorder → q.ratio = false)
    (h : e.eval = .ok v) : v.ratio = true ↔ e.Cancels := by
  refine ⟨cancels_of_ratio h ?_, fun hcancels => ?_⟩
  · rintro q rfl
    exact hunmarked q (by simp [postorder])
  · obtain ⟨x, hx⟩ := hcancels.eval_eq
    cases h.symm.trans hx
    rfl

/-- No literal of an expression that was read is marked. -/
theorem ratio_eq_false_of_ofText (hread : Expr.ofText scope text = .ok e) :
    ∀ q, .literal q ∈ e.postorder → q.ratio = false :=
  ratio_eq_false_of_readable (readable_of_ofText hread)

/-- The answer is a text without a unit exactly if units cancel at the root. -/
theorem exists_bareText_iff :
    (∃ r, evaluate scope text = .ok r ∧ r.IsBareText) ↔
      ∃ e, Expr.ofText scope text = .ok e ∧ e.Cancels := by
  simp only [exists_evaluate_iff, Answer.isBareText_ofQuantity]
  constructor
  · rintro ⟨e, q, hread, hvalue, -, hratio⟩
    exact ⟨e, hread, (Expr.ratio_iff (ratio_eq_false_of_ofText hread) hvalue).1 hratio⟩
  · rintro ⟨e, hread, hcancels⟩
    obtain ⟨x, hvalue⟩ := hcancels.eval_eq
    exact ⟨e, _, hread, hvalue, rfl, rfl⟩

/-- The answer is a number exactly if the value has no unit and none cancelled at the root. -/
theorem evaluate_eq_number_iff {x : Float} :
    evaluate scope text = .ok (.number x) ↔
      ∃ e q, Expr.ofText scope text = .ok e ∧ e.eval = .ok q ∧ q.unit = none ∧
        q.magnitude = x ∧ ¬ e.Cancels := by
  have hanswer : evaluate scope text = .ok (.number x) ↔
      ∃ r, evaluate scope text = .ok r ∧ r = .number x := by simp
  simp only [hanswer, exists_evaluate_iff, Answer.ofQuantity_eq_number]
  -- without a unit, not to cancel is to have no mark
  refine exists_congr fun e => exists_congr fun q => and_congr_right fun hread =>
    and_congr_right fun hvalue => and_congr_right fun _ => ?_
  rw [← Expr.ratio_iff (ratio_eq_false_of_ofText hread) hvalue, Bool.not_eq_true, and_comm]

/-- The answer ends in a unit exactly if the value has one. -/
theorem exists_endsInUnit_iff :
    (∃ r, evaluate scope text = .ok r ∧ r.EndsInUnit) ↔
      ∃ e q, Expr.ofText scope text = .ok e ∧ e.eval = .ok q ∧ q.unit ≠ none := by
  simp only [exists_evaluate_iff, Answer.endsInUnit_ofQuantity]

theorem evaluate_eq_bareText (hread : Expr.ofText scope text = .ok e) (hvalue : e.eval = .ok q)
    (hcancels : e.Cancels) : evaluate scope text = .ok (.text (numberText q.magnitude)) := by
  obtain ⟨x, hx⟩ := hcancels.eval_eq
  cases hvalue.symm.trans hx
  exact evaluate_of_eval hread hvalue

theorem evaluate_eq_unit {unit : CssUnit} (hread : Expr.ofText scope text = .ok e)
    (hvalue : e.eval = .ok q) (hunit : q.unit = some unit) :
    evaluate scope text = .ok (.text (numberText q.magnitude ++ unit.suffix)) := by
  rw [evaluate_of_eval hread hvalue, Answer.ofQuantity, hunit]
  simp only [Quantity.text, hunit]
  rfl

end Texts

/-- The mark of a ratio ends with the next operation. If no literal has it, then a value has it
exactly if its expression is a division in which units cancel, and such a value has no unit. The
marks of literals below the root change neither the value nor the fault. So the answer to a text is
a text without a unit exactly if units cancel at the root of its expression, a number exactly if the
value has no unit otherwise, and a text that ends in a unit exactly if the value has one. -/
theorem ratio_atRoot :
    (∀ (e : Expr) (v : Quantity), (∀ q, .literal q ∈ e.postorder → q.ratio = false) →
        e.eval = .ok v → (v.ratio = true ↔ e.Cancels) ∧ (v.ratio = true → v.unit = none)) ∧
      (∀ e f : Expr, (∀ q, e ≠ .literal q) → e.unmarked = f.unmarked → e.eval = f.eval) ∧
      ∀ (scope : Scope) (text : String),
        (∀ e, Expr.ofText scope text = .ok e → ∀ q, .literal q ∈ e.postorder → q.ratio = false) ∧
          ((∃ r, evaluate scope text = .ok r ∧ r.IsBareText) ↔
            ∃ e, Expr.ofText scope text = .ok e ∧ e.Cancels) ∧
          (∀ x, evaluate scope text = .ok (.number x) ↔
            ∃ e q, Expr.ofText scope text = .ok e ∧ e.eval = .ok q ∧ q.unit = none ∧
              q.magnitude = x ∧ ¬ e.Cancels) ∧
          ((∃ r, evaluate scope text = .ok r ∧ r.EndsInUnit) ↔
            ∃ e q, Expr.ofText scope text = .ok e ∧ e.eval = .ok q ∧ q.unit ≠ none) ∧
          ∀ e q, Expr.ofText scope text = .ok e → e.eval = .ok q →
            (e.Cancels → evaluate scope text = .ok (.text (numberText q.magnitude))) ∧
              ∀ unit, q.unit = some unit →
                evaluate scope text = .ok (.text (numberText q.magnitude ++ unit.suffix)) := by
  refine ⟨fun e v hunmarked hvalue => ?_, fun e f => Expr.eval_eq_of_unmarked_eq,
    fun scope text => ⟨fun e => ratio_eq_false_of_ofText, exists_bareText_iff,
      fun x => evaluate_eq_number_iff, exists_endsInUnit_iff, fun e q hread hvalue =>
        ⟨evaluate_eq_bareText hread hvalue, fun unit => evaluate_eq_unit hread hvalue⟩⟩⟩
  have hratio := Expr.ratio_iff hunmarked hvalue
  refine ⟨hratio, fun hmarked => ?_⟩
  obtain ⟨x, hx⟩ := (hratio.1 hmarked).eval_eq
  cases hvalue.symm.trans hx
  rfl

/-- A quotient of equal units is a text without a unit. If something is added to it, the answer is a
number. -/
theorem ratio_atRoot_px :
    (∃ r, evaluate Scope.math "0px / 0px" = .ok r ∧ r.IsBareText) ∧
      ∃ x, evaluate Scope.math "0px / 0px + 0" = .ok (.number x) := by
  let px : Expr := .literal ⟨Binary64.toFloat 0, some .px, false⟩
  let zero : Expr := .literal ⟨Binary64.toFloat 0, none, false⟩
  have hquotient : Expr.ofText Scope.math "0px / 0px" = .ok (.binary .divide px px) := by cbv
  have hsum : Expr.ofText Scope.math "0px / 0px + 0" =
      .ok (.binary .add (.binary .divide px px) zero) := by cbv
  obtain ⟨-, -, htexts⟩ := ratio_atRoot
  refine ⟨(htexts Scope.math "0px / 0px").2.1.2 ⟨_, hquotient, ?_⟩, _,
    ((htexts Scope.math "0px / 0px + 0").2.2.1 _).2 ⟨_, _, hsum, rfl, rfl, rfl, ?_⟩⟩
  · exact ⟨px, px, _, _, .px, rfl, rfl, rfl, rfl, rfl⟩
  · simp [Expr.Cancels]

end UnitCalc
