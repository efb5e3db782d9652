import Mathlib
import UnitCalc.Binary64.Lemmas
import UnitCalc.Decimal.Shortest
import UnitCalc.Text.Runs

/-!
# Numerals, written and read

* `Decimal.ofChars?_chars`: what `chars` writes, `ofChars?` reads back.
* `Decimal.rank_shortest`: the shortest numeral of a magnitude reads back to that magnitude.
-/

namespace UnitCalc

theorem tenPow_eq (n : Nat) : tenPow n = 10 ^ n := rfl

namespace Decimal

/-! ## Runs of digits -/

theorem isDigit_of_mem_toDigits {n : Nat} {c : Char} (h : c ∈ Nat.toDigits 10 n) :
    c.isDigit = true :=
  Nat.isDigit_of_mem_toDigits (by decide) (by decide) h

/-- A number below `10 ^ width` has at most `width` digits. -/
theorem length_toDigits_le {n width : Nat} (hw : 0 < width) (h : n < 10 ^ width) :
    (Nat.toDigits 10 n).length ≤ width := by
  induction width generalizing n with
  | zero => omega
  | succ w ih =>
    by_cases hn : n < 10
    · simp [Nat.toDigits_of_lt_base hn]
    -- the last digit is split off, and the rest is below the next smaller power
    · rw [Nat.toDigits_of_base_le (by decide) (by omega), List.length_append]
      have hw : 0 < w := by
        rcases Nat.eq_zero_or_pos w with rfl | hw
        · simp at h; omega
        · exact hw
      have := ih hw (n := n / 10) (by rw [Nat.pow_succ] at h; omega)
      simpa using this

/-- A run of digits counts on from where the digits before it left off. -/
theorem ofDigitChars_eq_add (ds : List Char) (init : Nat) :
    Nat.ofDigitChars 10 ds init = Nat.ofDigitChars 10 ds 0 + init * 10 ^ ds.length := by
  induction ds generalizing init with
  | nil => simp
  | cons c ds ih =>
    rw [Nat.ofDigitChars_cons, ih, Nat.ofDigitChars_cons, ih (10 * 0 + _)]
    rw [List.length_cons, pow_succ]
    ring

/-- Zeros spell nothing. -/
theorem ofDigitChars_replicate_zero (k : Nat) :
    Nat.ofDigitChars 10 (List.replicate k '0') 0 = 0 := by
  induction k with
  | zero => rfl
  | succ k ih => rw [List.replicate_succ, Nat.ofDigitChars_cons]; exact ih

theorem length_padded {width n : Nat} (hw : 0 < width) (h : n < 10 ^ width) :
    (padded width n).length = width := by
  rw [padded, List.length_leftpad]
  exact Nat.max_eq_left (length_toDigits_le hw h)

theorem isDigit_of_mem_padded {width n : Nat} {c : Char} (h : c ∈ padded width n) :
    c.isDigit = true := by
  rw [padded, List.leftpad, List.mem_append, List.mem_replicate] at h
  rcases h with ⟨_, rfl⟩ | h
  · decide
  · exact isDigit_of_mem_toDigits h

/-- Zeros in front do not change what a run of digits spells. -/
theorem spelled_padded (width n : Nat) : spelled (padded width n) = n := by
  rw [spelled, padded, List.leftpad, Nat.ofDigitChars_append, ofDigitChars_replicate_zero,
    Nat.ofDigitChars_toDigits (by decide) (by decide)]

/-- The two parts of a numeral spell its digits between them. -/
theorem spelled_whole_append_fraction {n places : Nat} (hp : 0 < places) :
    spelled (Nat.toDigits 10 (n / 10 ^ places) ++ padded places (n % 10 ^ places)) = n := by
  have hlt : n % 10 ^ places < 10 ^ places := Nat.mod_lt _ (by positivity)
  have hfraction := spelled_padded places (n % 10 ^ places)
  rw [spelled] at hfraction
  rw [spelled, Nat.ofDigitChars_append, Nat.ofDigitChars_toDigits (by decide) (by decide),
    ofDigitChars_eq_add, length_padded hp hlt, hfraction, mul_comm]
  exact Nat.mod_add_div n (10 ^ places)

/-! ## Writing, then reading -/

/-- Reading undoes writing. -/
theorem ofChars?_chars (d : Decimal) : ofChars? d.chars = some d := by
  obtain ⟨n, places⟩ := d
  have hwhole (k : Nat) : ∀ c ∈ Nat.toDigits 10 k, c.isDigit = true :=
    fun _ h => isDigit_of_mem_toDigits h
  -- without places there is no point in the text, and the digits are the whole of it
  by_cases hp : places = 0
  · subst hp
    have hne : (Nat.toDigits 10 n).isEmpty = false :=
      List.isEmpty_eq_false_iff.2 Nat.toDigits_ne_nil
    simp only [ofChars?, chars, ↓reduceIte, List.takeWhile_eq_self_iff.2 (hwhole n),
      List.dropWhile_eq_nil_iff.2 (hwhole n), hne, spelled,
      Nat.ofDigitChars_toDigits (b := 10) (by decide) (by decide), Bool.false_eq_true]
  · have hpos : 0 < places := by omega
    have hlt : n % 10 ^ places < 10 ^ places := Nat.mod_lt _ (by positivity)
    -- the whole part ends at the point, and the places behind it are padded to their number
    have hpoint : ∀ c ∈ ('.' :: padded places (n % 10 ^ places)).head?, c.isDigit = false := by simp
    have hall : (padded places (n % 10 ^ places)).all Char.isDigit = true :=
      List.all_eq_true.2 fun _ h => isDigit_of_mem_padded h
    simp [ofChars?, chars, tenPow_eq, hp, takeWhile_run (hwhole _) hpoint,
      dropWhile_run (hwhole _) hpoint, hall, spelled_whole_append_fraction hpos,
      length_padded hpos hlt]

/-! ## The shortest numeral -/

/-- A hit is only taken if it reads back as the rank it was searched for. -/
theorem rank_of_hit? {g : DecimalGrid} {rank : Nat} {d : Decimal} (h : g.hit? rank = some d) :
    d.rank = rank := by
  simp only [DecimalGrid.hit?] at h
  split at h
  · rename_i hlow
    simp only [Bool.and_eq_true, beq_iff_eq] at hlow
    exact (Option.some.inj h) ▸ hlow.2
  split at h
  · rename_i hhigh
    exact (Option.some.inj h) ▸ beq_iff_eq.1 hhigh
  split at h
  · rename_i hlow
    exact (Option.some.inj h) ▸ beq_iff_eq.1 hlow
  · cases h

theorem rank_exact {rank : Nat} (h : rank ≤ Binary64.infinity) : (exact rank).rank = rank := by
  have hten (n : Nat) : Nat.pow 5 n * 2 ^ n = tenPow n := (mul_pow 5 2 n).symm
  refine Binary64.nearest_scaled (Nat.pow_pos (by decide)) h ?_
  rw [exact, Nat.shiftLeft_eq, mul_assoc, hten]

/-- The shortest numeral reads back to the magnitude it was made from. -/
theorem rank_shortest {rank : Nat} (h : rank ≤ Binary64.infinity) :
    (shortest rank).rank = rank := by
  simp only [shortest]
  cases hs : (DecimalGrid.candidates _).findSome? (·.hit? rank) with
  | none => exact rank_exact h
  | some d =>
    obtain ⟨g, _, hg⟩ := List.exists_of_findSome?_eq_some hs
    exact rank_of_hit? hg

end Decimal

end UnitCalc
