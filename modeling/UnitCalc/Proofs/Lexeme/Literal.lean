import Mathlib
import UnitCalc.Proofs.Lexeme.Separator

/-!
# Literals

A numeral is written with ASCII digits, at most one point among them, and it has at least one digit.
A literal is a numeral with nothing behind it or with exactly one unit. Both are said here without
the readers; then the readers accept exactly these and find their values:

* `Decimal.ofChars?_of_numeral`, `Decimal.numeral_of_ofChars?`: numerals and the decimals they
  spell.
* `Quantity.ofChars?_eq_some`: literals and their quantities.
-/

namespace UnitCalc

/-- The numeral, and the decimal it spells. -/
inductive Numeral : List Char → Decimal → Prop where
  | whole {ds : List Char} (hne : ds ≠ []) (hds : ∀ c ∈ ds, c.isDigit = true) :
      Numeral ds ⟨Decimal.spelled ds, 0⟩
  | point {ds fs : List Char} (hne : ds ++ fs ≠ []) (hds : ∀ c ∈ ds, c.isDigit = true)
      (hfs : ∀ c ∈ fs, c.isDigit = true) :
      Numeral (ds ++ '.' :: fs) ⟨Decimal.spelled (ds ++ fs), fs.length⟩

/-- The literal, and the quantity it stands for. -/
inductive Literal : List Char → Quantity → Prop where
  | bare {numeral : List Char} {d : Decimal} (h : Numeral numeral d) :
      Literal numeral ⟨Binary64.toFloat d.rank, none, false⟩
  | unit {numeral : List Char} {d : Decimal} (h : Numeral numeral d) (unit : CssUnit) :
      Literal (numeral ++ unit.suffix.toList) ⟨Binary64.toFloat d.rank, some unit, false⟩

theorem Literal.ratio_eq_false {text : List Char} {q : Quantity} (h : Literal text q) :
    q.ratio = false := by
  cases h <;> rfl

/-! ## Numerals -/

/-- A numeral is read as the decimal that it spells. -/
theorem Decimal.ofChars?_of_numeral {text : List Char} {d : Decimal} (h : Numeral text d) :
    Decimal.ofChars? text = some d := by
  cases h with
  | whole hne hds =>
    unfold Decimal.ofChars?
    simp [List.takeWhile_eq_self_iff.2 hds, List.dropWhile_eq_nil_iff.2 hds, hne]
  -- the run of digits stops at the point, since a point is no digit
  | @point ds fs hne hds hfs =>
    have hpoint : ∀ c ∈ ('.' :: fs).head?, c.isDigit = false := by simp
    have hall : fs.all Char.isDigit = true := List.all_eq_true.2 hfs
    unfold Decimal.ofChars?
    simp only [takeWhile_run hds hpoint, dropWhile_run hds hpoint, hall]
    simpa using hne

/-- What is read as a decimal is a numeral that spells it. -/
theorem Decimal.numeral_of_ofChars? {text : List Char} {d : Decimal}
    (h : Decimal.ofChars? text = some d) : Numeral text d := by
  have hsplit := List.takeWhile_append_dropWhile (p := Char.isDigit) (l := text)
  have hwhole : ∀ c ∈ text.takeWhile Char.isDigit, c.isDigit = true :=
    List.all_eq_true.1 List.all_takeWhile
  unfold Decimal.ofChars? at h
  dsimp only at h
  split at h
  · -- digits alone
    rename_i hdrop
    rw [hdrop, List.append_nil] at hsplit
    rw [hsplit] at h hwhole
    split at h
    · exact absurd h (by simp)
    · rename_i hne
      cases h
      exact .whole (mt List.isEmpty_iff.2 hne) hwhole
  -- digits, and something behind them, which has to be a point and digits
  · rename_i c fraction hdrop
    split at h
    · rename_i hpoint
      simp only [Bool.and_eq_true, decide_eq_true_eq, List.all_eq_true, Bool.not_eq_true',
        List.isEmpty_eq_false_iff] at hpoint
      obtain ⟨⟨rfl, hfraction⟩, hne⟩ := hpoint
      cases h
      rw [hdrop] at hsplit
      conv_lhs => rw [← hsplit]
      exact .point hne hwhole hfraction
    · exact absurd h (by simp)

/-- A numeral has only characters that the reader of literals takes in. -/
theorem Numeral.isNumeral {text : List Char} {d : Decimal} (h : Numeral text d) :
    ∀ c ∈ text, Quantity.isNumeral c = true := by
  intro c hc
  cases h with
  | whole _ hds => simp [Quantity.isNumeral, hds c hc]
  | @point ds fs _ hds hfs =>
    rcases List.mem_append.1 hc with hc | hc
    · simp [Quantity.isNumeral, hds c hc]
    · rcases List.mem_cons.1 hc with rfl | hc
      · simp [Quantity.isNumeral]
      · simp [Quantity.isNumeral, hfs c hc]

/-! ## Literals -/

/-- No unit begins like a numeral. -/
theorem isNumeral_suffix (unit : CssUnit) :
    ∀ c ∈ unit.suffix.toList.head?, Quantity.isNumeral c = false := by
  cases unit <;> simp [CssUnit.suffix, Quantity.isNumeral]

theorem suffix_toList_ne_nil (unit : CssUnit) : unit.suffix.toList ≠ [] := by
  cases unit <;> decide

/-- A literal is read as the quantity that it stands for. -/
theorem Quantity.ofChars?_of_literal {text : List Char} {q : Quantity} (h : Literal text q) :
    Quantity.ofChars? text = some q := by
  cases h with
  | bare h =>
    have hread := Decimal.ofChars?_of_numeral h
    unfold Quantity.ofChars?
    simp [List.takeWhile_eq_self_iff.2 h.isNumeral, List.dropWhile_eq_nil_iff.2 h.isNumeral, hread]
  | unit h unit =>
    have hread := Decimal.ofChars?_of_numeral h
    -- the numeral stops where the unit begins, so the two are told apart
    have hhead := isNumeral_suffix unit
    obtain ⟨c, rest, hsuffix⟩ := List.exists_cons_of_ne_nil (suffix_toList_ne_nil unit)
    have hunit : CssUnit.ofSuffix? (String.ofList (c :: rest)) = some unit := by
      rw [← hsuffix, String.ofList_toList]
      exact CssUnit.ofSuffix?_suffix unit
    unfold Quantity.ofChars?
    rw [takeWhile_run h.isNumeral hhead, dropWhile_run h.isNumeral hhead, hread, hsuffix]
    simp only [Option.bind_eq_bind, Option.bind_some, hunit, Option.map_some]

/-- What is read as a quantity is a literal that stands for it. -/
theorem Quantity.literal_of_ofChars? {text : List Char} {q : Quantity}
    (h : Quantity.ofChars? text = some q) : Literal text q := by
  have hsplit := List.takeWhile_append_dropWhile (p := Quantity.isNumeral) (l := text)
  unfold Quantity.ofChars? at h
  obtain ⟨d, hread, h⟩ := Option.bind_eq_some_iff.1 h
  have hnumeral := Decimal.numeral_of_ofChars? hread
  split at h
  · rename_i hdrop
    rw [hdrop, List.append_nil] at hsplit
    rw [hsplit] at hnumeral
    cases h
    exact .bare hnumeral
  · obtain ⟨unit, hunit, rfl⟩ := Option.map_eq_some_iff.1 h
    have hsuffix := congrArg String.toList (CssUnit.suffix_of_ofSuffix? hunit)
    rw [String.toList_ofList] at hsuffix
    conv_lhs => rw [← hsplit, ← hsuffix]
    exact .unit hnumeral unit

/-- The literals are what is read as a quantity. -/
theorem Quantity.ofChars?_eq_some {text : List Char} {q : Quantity} :
    Quantity.ofChars? text = some q ↔ Literal text q :=
  ⟨Quantity.literal_of_ofChars?, Quantity.ofChars?_of_literal⟩

end UnitCalc
