import Mathlib
import UnitCalc.Proofs.Bits
import UnitCalc.Proofs.Lexeme.MaximalMunch
import UnitCalc.Proofs.Lexeme.Words

/-!
# Texts that are one number

A quantity can be read from a text in two ways: by the reader of literals, which looks at the whole
text, and by the tokenizer, which finds the longest number at its start. Both accept the same texts
and find the same quantity (`ofText_oneLexeme`), because to either of them the text is a `Literal`.

A literal has no sign, so its magnitude is a number that is not negative; it may be infinite
(`Literal.magnitude`).
-/

namespace UnitCalc

open Binary64 (infinity toFloat)

/-! ## Magnitudes -/

theorem Decimal.rank_le_infinity (d : Decimal) : d.rank ≤ infinity := Nat.min_le_left ..

/-- The magnitude of a literal is a number, it is not negative, and it is not the negative zero. -/
theorem Literal.magnitude {text : List Char} {q : Quantity} (h : Literal text q) :
    0 ≤ q.magnitude ∧ q.magnitude.isNaN = false ∧ q.magnitude.toBits ≠ 0x8000000000000000 := by
  have hrank : ∃ rank ≤ infinity, q.magnitude = toFloat rank := by
    cases h with
    | bare h => exact ⟨_, Decimal.rank_le_infinity _, rfl⟩
    | unit h unit => exact ⟨_, Decimal.rank_le_infinity _, rfl⟩
  obtain ⟨rank, hle, hmagnitude⟩ := hrank
  rw [hmagnitude, Binary64.toBits_toFloat hle]
  refine ⟨Binary64.zero_le_toFloat hle, Binary64.isNaN_toFloat hle, fun hbits => ?_⟩
  -- the bits are the rank, which does not reach up to the sign bit
  have hsign : rank % 2 ^ 64 = 0x8000000000000000 := congrArg UInt64.toNat hbits
  rw [infinity] at hle
  omega

/-! ## The reader of literals -/

/-- The reader of literals reads the texts that are literals. -/
theorem Quantity.ofText_eq_ok {text : String} {q : Quantity} :
    Quantity.ofText text = .ok q ↔ Literal text.toList q := by
  rw [← Quantity.ofChars?_eq_some, Quantity.ofText]
  cases Quantity.ofChars? text.toList <;> simp

/-- All other texts are malformed numbers as a whole. -/
theorem Quantity.ofText_eq_error {text : String} {fault : Fault}
    (h : Quantity.ofText text = .error fault) : fault = .malformedNumber text := by
  unfold Quantity.ofText at h
  split at h
  · exact absurd h (by simp)
  · cases h
    rfl

/-! ## A lexeme that is the whole text -/

theorem eq_nil_of_byteLength_eq_zero {w : List Char} (h : byteLength w = 0) : w = [] := by
  by_contra hne
  have := byteLength_pos hne
  omega

/-- A lexeme takes up the whole text if its span does. -/
theorem Lexeme.CutFrom.whole_iff {text : List Char} {l : Lexeme} (h : l.CutFrom text) :
    l.start = 0 ∧ l.stop = byteLength text ↔ l.text.toList = text := by
  obtain ⟨before, rest, _, htext, hstart, hstop, -, -⟩ := h
  -- the bytes of the text are those in front of the lexeme, its own, and those behind it
  have hlength := congrArg byteLength htext
  rw [byteLength_append, byteLength_append] at hlength
  constructor
  · rintro ⟨hzero, hall⟩
    have hbefore : before = [] := eq_nil_of_byteLength_eq_zero (by omega)
    have hrest : rest = [] := eq_nil_of_byteLength_eq_zero (by omega)
    rw [htext, hbefore, hrest, List.append_nil, List.nil_append]
  · intro hwhole
    rw [hwhole] at hstop hlength
    omega

/-- A literal is a lexeme by itself. -/
theorem Literal.tokenize_eq {text : String} {q : Quantity} (h : Literal text.toList q) :
    ∃ l, tokenize text = .ok [l] ∧ l.token = .number q ∧ l.text = text := by
  have hwords := tokenize_words text
  rw [wordsOf_alone h.mem (.number h), String.ofList_toList] at hwords
  obtain ⟨lexemes, htokenize, hmap⟩ := exists_of_map_eq_ok hwords
  obtain ⟨l, rfl, hword⟩ := List.map_eq_singleton_iff.1 hmap
  exact ⟨l, htokenize, congrArg Prod.fst hword, congrArg Prod.snd hword⟩

/-! ## The two readers -/

/-- A quantity is read from a text exactly if the text is a single lexeme, a number, and the lexeme
takes up the whole text. Such a quantity is no ratio, and its magnitude is a number that is not
negative, nor the negative zero. Any other text is a malformed number as a whole. -/
theorem ofText_oneLexeme (text : String) :
    (∀ q, Quantity.ofText text = .ok q ↔
      ∃ l, tokenize text = .ok [l] ∧ l.token = .number q ∧ l.start = 0 ∧
        l.stop = text.utf8ByteSize) ∧
    (∀ q, Quantity.ofText text = .ok q →
      q.ratio = false ∧ 0 ≤ q.magnitude ∧ q.magnitude.isNaN = false ∧
        q.magnitude.toBits ≠ 0x8000000000000000) ∧
    ∀ fault, Quantity.ofText text = .error fault → fault = .malformedNumber text := by
  have hsize : text.utf8ByteSize = byteLength text.toList := by
    rw [← utf8ByteSize_ofList, String.ofList_toList]
  refine ⟨fun q => ?_, fun q hq => ?_, fun fault => Quantity.ofText_eq_error⟩
  · rw [Quantity.ofText_eq_ok, hsize]
    -- a literal is one lexeme; and one lexeme that is a number and the whole text was cut off as a
    -- literal
    constructor
    · intro hliteral
      obtain ⟨l, htokenize, htoken, htext⟩ := hliteral.tokenize_eq
      have hcut := (decomposition_of_tokenize htokenize).cut l (List.mem_singleton_self l)
      exact ⟨l, htokenize, htoken, hcut.whole_iff.2 (congrArg String.toList htext)⟩
    · rintro ⟨l, htokenize, htoken, hspan⟩
      have hall := decomposition_of_tokenize htokenize
      have hmem := List.mem_singleton_self l
      rw [← (hall.cut l hmem).whole_iff.1 hspan]
      exact hall.literal_of_number l hmem q htoken
  · have hliteral := Quantity.ofText_eq_ok.1 hq
    exact ⟨hliteral.ratio_eq_false, hliteral.magnitude⟩

/-- A point may stand at the end of a numeral. -/
theorem ofText_oneLexeme_percent :
    ∃ q l, Quantity.ofText "5.%" = .ok q ∧ tokenize "5.%" = .ok [l] ∧ l.token = .number q ∧
      l.start = 0 ∧ l.stop = 3 ∧ q.ratio = false ∧ 0 ≤ q.magnitude ∧
      q.magnitude.isNaN = false ∧ q.magnitude.toBits ≠ 0x8000000000000000 := by
  have hnumeral : Numeral (['5'] ++ '.' :: []) ⟨Decimal.spelled ['5'], 0⟩ :=
    .point (by simp) (by simp) (by simp)
  have hread : Quantity.ofText "5.%" =
      .ok ⟨toFloat (Decimal.rank ⟨Decimal.spelled ['5'], 0⟩), some .percent, false⟩ :=
    Quantity.ofText_eq_ok.2 (Literal.unit hnumeral .percent)
  obtain ⟨hone, hmagnitude, -⟩ := ofText_oneLexeme "5.%"
  obtain ⟨l, hlexeme⟩ := (hone _).1 hread
  obtain ⟨hratio, hvalue⟩ := hmagnitude _ hread
  exact ⟨_, l, hread, hlexeme.1, hlexeme.2.1, hlexeme.2.2.1, hlexeme.2.2.2, hratio, hvalue⟩

end UnitCalc
