import Mathlib
import UnitCalc.Proofs.Lexeme.Literal

/-!
# The rules of the lexemes

Three rules say which stretches of a text may be lexemes. Each one is a regular language:

```text
number = (\d+(\.\d*)?|\.\d+)([a-zA-Z][a-zA-Z0-9]*|%[a-zA-Z0-9]*)?
name   = [a-zA-Z]+
sign   = one of + - * / ^ ( )
```

A text begins with the lexeme that is its longest start in the language of any rule. The number rule
takes in more than numbers, so its words are literals or malformed.

* `prefix_numberRun`, `numberRun_mem`: the runs of the tokenizer find the longest word of the number
  rule.
* `Rule.begins_unique`: the first character decides which rule applies.
* `firstLexeme_eq_ok`: the first lexeme is the longest one, with the token of its rule.
* `noLexeme_of_firstLexeme`: there is none only if no rule applies or the longest one is malformed.
-/

namespace UnitCalc

open scoped Computability

/-! ## The languages -/

/-- The words of one character of a class. -/
def oneOf (p : Char → Bool) : Language Char := {w | ∃ c, p c = true ∧ w = [c]}

/-- The words of one or more characters of a class. -/
def someOf (p : Char → Bool) : Language Char := oneOf p * (oneOf p)∗

/-- The rules of the lexemes. -/
inductive Rule where
  | number | name | sign

namespace Rule

/-- What a number is written with, in any script. -/
def numeral : Language Char :=
  someOf isDecimalDigit * (1 + oneOf (· == '.') * (oneOf isDecimalDigit)∗)
    + oneOf (· == '.') * someOf isDecimalDigit

/-- What is attached to a number. -/
def attachment : Language Char :=
  oneOf Char.isAlpha * (oneOf Char.isAlphanum)∗ + oneOf (· == '%') * (oneOf Char.isAlphanum)∗

/-- The words of a rule. -/
def language : Rule → Language Char
  | number => numeral * (1 + attachment)
  | name => someOf Char.isAlpha
  | sign => oneOf (['+', '-', '*', '/', '^', '(', ')'].contains ·)

/-- The token that a rule makes of a word. -/
inductive Makes : Rule → List Char → Token → Prop where
  | number {w : List Char} {q : Quantity} (h : Literal w q) : Makes .number w (.number q)
  | name (w : List Char) : Makes .name w (.name (String.ofList w))
  | operator (op : Operator) : Makes .sign [op.symbol] (.operator op)
  | openParen : Makes .sign ['('] .openParen
  | closeParen : Makes .sign [')'] .closeParen

end Rule

/-- The word `w` of the rule `r` is the longest start of the text that belongs to any rule. -/
structure Longest (r : Rule) (text w : List Char) : Prop where
  mem : w ∈ r.language
  start : w <+: text
  longest : ∀ (s : Rule) (v : List Char), v ∈ s.language → v <+: text → v.length ≤ w.length

/-- Why a text begins with no lexeme. -/
inductive NoLexeme : List Char → Fault → Prop where
  | unexpectedCharacter {c : Char} {rest : List Char}
      (h : ∀ (s : Rule) (v : List Char), v ∈ s.language → ¬ v <+: c :: rest) :
      NoLexeme (c :: rest) (.unexpectedCharacter c)
  | malformedNumber {text w : List Char} (h : Longest .number text w)
      (hbad : ∀ q, ¬ Literal w q) : NoLexeme text (.malformedNumber (String.ofList w))

/-! ## Words -/

section Words

variable {p : Char → Bool} {l : Language Char} {w : List Char}

theorem mem_oneOf_mul : w ∈ oneOf p * l ↔ ∃ c rest, p c = true ∧ rest ∈ l ∧ w = c :: rest := by
  rw [Language.mem_mul]
  constructor
  · rintro ⟨_, ⟨c, hc, rfl⟩, rest, hrest, rfl⟩
    exact ⟨c, rest, hc, hrest, rfl⟩
  · rintro ⟨c, rest, hc, hrest, rfl⟩
    exact ⟨[c], ⟨c, hc, rfl⟩, rest, hrest, rfl⟩

theorem mem_star_oneOf : w ∈ (oneOf p)∗ ↔ ∀ c ∈ w, p c = true := by
  rw [Language.mem_kstar]
  constructor
  · rintro ⟨parts, rfl, hparts⟩ c hc
    obtain ⟨part, hpart, hmem⟩ := List.mem_flatten.1 hc
    obtain ⟨a, ha, rfl⟩ := hparts part hpart
    rw [List.mem_singleton.1 hmem]
    exact ha
  · intro hw
    -- the word falls apart into its characters
    refine ⟨w.map ([·]), by rw [← List.flatMap_def, List.flatMap_singleton'], ?_⟩
    intro part hpart
    obtain ⟨c, hc, rfl⟩ := List.mem_map.1 hpart
    exact ⟨c, hw c hc, rfl⟩

theorem mem_someOf : w ∈ someOf p ↔ w ≠ [] ∧ ∀ c ∈ w, p c = true := by
  rw [someOf, mem_oneOf_mul]
  constructor
  · rintro ⟨c, rest, hc, hrest, rfl⟩
    exact ⟨by simp, List.forall_mem_cons.2 ⟨hc, mem_star_oneOf.1 hrest⟩⟩
  · rintro ⟨hne, hw⟩
    obtain ⟨c, rest, rfl⟩ := List.exists_cons_of_ne_nil hne
    obtain ⟨hc, hrest⟩ := List.forall_mem_cons.1 hw
    exact ⟨c, rest, hc, mem_star_oneOf.2 hrest, rfl⟩

theorem mem_one_add : w ∈ 1 + l ↔ w = [] ∨ w ∈ l := by
  rw [Language.mem_add, Language.mem_one]

end Words

namespace Rule

variable {w : List Char}

/-- Digits alone, or a point with digits around it. -/
theorem mem_numeral : w ∈ numeral ↔
    (w ≠ [] ∧ ∀ c ∈ w, isDecimalDigit c = true) ∨
      ∃ ds fs, ds ++ fs ≠ [] ∧ (∀ c ∈ ds, isDecimalDigit c = true) ∧
        (∀ c ∈ fs, isDecimalDigit c = true) ∧ w = ds ++ '.' :: fs := by
  rw [numeral, Language.mem_add, Language.mem_mul, mem_oneOf_mul]
  constructor
  · rintro (⟨ds, hds, tail, htail, rfl⟩ | ⟨c, fs, hc, hfs, rfl⟩)
    · obtain ⟨hne, hds⟩ := mem_someOf.1 hds
      rcases mem_one_add.1 htail with rfl | htail
      · rw [List.append_nil]
        exact .inl ⟨hne, hds⟩
      · obtain ⟨c, fs, hc, hfs, rfl⟩ := mem_oneOf_mul.1 htail
        rw [beq_iff_eq.1 hc]
        exact .inr ⟨ds, fs, by simp [hne], hds, mem_star_oneOf.1 hfs, rfl⟩
    · obtain ⟨hne, hfs⟩ := mem_someOf.1 hfs
      rw [beq_iff_eq.1 hc]
      exact .inr ⟨[], fs, hne, by simp, hfs, rfl⟩
  · rintro (⟨hne, hw⟩ | ⟨ds, fs, hne, hds, hfs, rfl⟩)
    · exact .inl ⟨w, mem_someOf.2 ⟨hne, hw⟩, [], mem_one_add.2 (.inl rfl), List.append_nil w⟩
    · by_cases hnil : ds = []
      · subst hnil
        exact .inr ⟨'.', fs, rfl, mem_someOf.2 ⟨hne, hfs⟩, rfl⟩
      · refine .inl ⟨ds, mem_someOf.2 ⟨hnil, hds⟩, '.' :: fs, mem_one_add.2 (.inr ?_), rfl⟩
        exact mem_oneOf_mul.2 ⟨'.', fs, rfl, mem_star_oneOf.2 hfs, rfl⟩

/-- Letters and digits behind a letter or a percent sign. -/
theorem mem_attachment : w ∈ attachment ↔
    ∃ c rest, (c.isAlpha = true ∨ c = '%') ∧ (∀ a ∈ rest, a.isAlphanum = true) ∧ w = c :: rest := by
  rw [attachment, Language.mem_add, mem_oneOf_mul, mem_oneOf_mul]
  constructor
  · rintro (⟨c, rest, hc, hrest, rfl⟩ | ⟨c, rest, hc, hrest, rfl⟩)
    · exact ⟨c, rest, .inl hc, mem_star_oneOf.1 hrest, rfl⟩
    · exact ⟨c, rest, .inr (beq_iff_eq.1 hc), mem_star_oneOf.1 hrest, rfl⟩
  · rintro ⟨c, rest, hc | hc, hrest, rfl⟩
    · exact .inl ⟨c, rest, hc, mem_star_oneOf.2 hrest, rfl⟩
    · exact .inr ⟨c, rest, beq_iff_eq.2 hc, mem_star_oneOf.2 hrest, rfl⟩

theorem mem_number : w ∈ number.language ↔
    ∃ n s, n ∈ numeral ∧ (s = [] ∨ s ∈ attachment) ∧ w = n ++ s := by
  rw [language, Language.mem_mul]
  constructor
  · rintro ⟨n, hn, s, hs, rfl⟩
    exact ⟨n, s, hn, mem_one_add.1 hs, rfl⟩
  · rintro ⟨n, s, hn, hs, rfl⟩
    exact ⟨n, hn, s, mem_one_add.2 hs, rfl⟩

theorem numeral_ne_nil (h : w ∈ numeral) : w ≠ [] := by
  rcases mem_numeral.1 h with ⟨hne, -⟩ | ⟨ds, fs, -, -, -, rfl⟩
  · exact hne
  · simp

/-- A numeral consists of digits and points. -/
theorem digit_or_point (h : w ∈ numeral) : ∀ c ∈ w, isDecimalDigit c = true ∨ c = '.' := by
  intro c hc
  rcases mem_numeral.1 h with ⟨-, hw⟩ | ⟨ds, fs, -, hds, hfs, rfl⟩
  · exact .inl (hw c hc)
  · rcases List.mem_append.1 hc with hc | hc
    · exact .inl (hds c hc)
    · rcases List.mem_cons.1 hc with hc | hc
      · exact .inr hc
      · exact .inl (hfs c hc)

end Rule

/-! ## The longest number

`numeralRun` and `suffixRun` are the longest starts in the languages of numerals and attachments. A
longer attachment behind a shorter numeral cannot be: an attachment begins with a letter or a
percent sign, and a numeral goes on with neither. -/

section Number

variable {text w : List Char}

theorem isDecimalDigit_point : isDecimalDigit '.' = false := isDecimalDigit_eq_false (by decide)

/-- What the run of a numeral finds is one. -/
theorem numeralRun_mem (h : numeralRun text ≠ []) : numeralRun text ∈ Rule.numeral := by
  have hdigits {l : List Char} : ∀ c ∈ l.takeWhile isDecimalDigit, isDecimalDigit c = true :=
    List.all_eq_true.1 List.all_takeWhile
  unfold numeralRun at h ⊢
  split
  · rename_i rest hdrop
    simp only [hdrop] at h ⊢
    split
    · rename_i hempty
      rw [if_pos hempty] at h
      exact absurd rfl h
    · rename_i hne
      refine Rule.mem_numeral.2 (.inr ⟨_, _, ?_, hdigits, hdigits, rfl⟩)
      intro hnil
      obtain ⟨hwhole, hfraction⟩ := List.append_eq_nil_iff.1 hnil
      exact hne (by rw [hwhole, hfraction]; rfl)
  · rename_i hdrop
    split at h
    · rename_i rest hpoint
      exact absurd hpoint (hdrop rest)
    · exact Rule.mem_numeral.2 (.inl ⟨h, hdigits⟩)

/-- Every numeral that a text begins with is a start of the one that the run finds. -/
theorem prefix_numeralRun (hw : w ∈ Rule.numeral) (h : w <+: text) : w <+: numeralRun text := by
  rcases Rule.mem_numeral.1 hw with ⟨hne, hdigits⟩ | ⟨ds, fs, hne, hds, hfs, rfl⟩
  · -- digits alone belong to the whole part
    have hwhole := prefix_takeWhile hdigits h
    unfold numeralRun
    split
    · dsimp only
      split
      · rename_i hempty
        rw [Bool.and_eq_true, List.isEmpty_iff] at hempty
        rw [hempty.1, List.prefix_nil] at hwhole
        exact absurd hwhole hne
      · exact hwhole.trans (List.prefix_append ..)
    · exact hwhole
  -- digits around a point: the whole part stops at the point, and the fraction goes on as far as it
  -- can
  · obtain ⟨rest, rfl⟩ := h
    have hpoint : ∀ c ∈ ('.' :: (fs ++ rest)).head?, isDecimalDigit c = false := by
      simp [isDecimalDigit_point]
    have hfraction : (fs ++ rest).takeWhile isDecimalDigit = fs ++ rest.takeWhile isDecimalDigit :=
      List.takeWhile_append_of_pos hfs
    rw [List.append_assoc, List.cons_append, numeralRun]
    simp only [takeWhile_run hds hpoint, dropWhile_run hds hpoint, hfraction]
    split
    · rename_i hempty
      simp only [Bool.and_eq_true, List.isEmpty_iff, List.append_eq_nil_iff] at hempty
      exact absurd (List.append_eq_nil_iff.2 ⟨hempty.1, hempty.2.1⟩) hne
    · rw [List.prefix_append_right_inj, List.cons_prefix_cons]
      exact ⟨rfl, List.prefix_append ..⟩

/-- What the run of a suffix finds is an attachment, if it finds anything. -/
theorem suffixRun_mem : suffixRun text = [] ∨ suffixRun text ∈ Rule.attachment := by
  cases text with
  | nil => exact .inl rfl
  | cons c rest =>
    rw [suffixRun]
    split
    · rename_i hc
      rw [Bool.or_eq_true, decide_eq_true_eq] at hc
      exact .inr (Rule.mem_attachment.2 ⟨c, _, hc, List.all_eq_true.1 List.all_takeWhile, rfl⟩)
    · exact .inl rfl

/-- Every attachment that a text begins with is a start of the one that the run finds. -/
theorem prefix_suffixRun (hw : w ∈ Rule.attachment) (h : w <+: text) : w <+: suffixRun text := by
  obtain ⟨c, rest, hc, hrest, rfl⟩ := Rule.mem_attachment.1 hw
  obtain ⟨behind, rfl⟩ := h
  rw [List.cons_append, suffixRun, if_pos (by simpa using hc), List.cons_prefix_cons]
  exact ⟨rfl, prefix_takeWhile hrest (List.prefix_append ..)⟩

/-- A numeral with its suffix is a word of the rule of numbers. -/
theorem numberRun_mem (h : numberRun text ≠ []) : numberRun text ∈ Rule.number.language := by
  unfold numberRun at h ⊢
  dsimp only at h ⊢
  split
  · rename_i hempty
    rw [if_pos hempty] at h
    exact absurd rfl h
  · rename_i hne
    exact Rule.mem_number.2
      ⟨_, _, numeralRun_mem (mt List.isEmpty_iff.2 hne), suffixRun_mem, rfl⟩

/-- An attachment does not begin like a numeral goes on. -/
theorem not_digit_or_point {c : Char} (h : c.isAlpha = true ∨ c = '%') :
    ¬ (isDecimalDigit c = true ∨ c = '.') := by
  rcases h with halpha | rfl
  · have hcode : 65 ≤ c.toNat ∧ c.toNat ≤ 90 ∨ 97 ≤ c.toNat ∧ c.toNat ≤ 122 := by
      simpa [Char.isAlpha, Char.isUpper, Char.isLower, UInt32.le_iff_toNat_le] using halpha
    have hdigit : isDecimalDigit c = false := isDecimalDigit_eq_false (by omega)
    rintro (hc | rfl)
    · rw [hdigit] at hc
      exact absurd hc (by simp)
    · exact absurd halpha (by decide)
  · rw [isDecimalDigit_eq_false (by decide)]
    decide

/-- The numeral in front of an attachment is the longest one of the text. -/
theorem numeralRun_attachment {n s rest : List Char} (hn : n ∈ Rule.numeral)
    (hs : s ∈ Rule.attachment) : numeralRun (n ++ (s ++ rest)) = n := by
  obtain ⟨c, tail, hc, -, rfl⟩ := Rule.mem_attachment.1 hs
  have hlonger := prefix_numeralRun hn (List.prefix_append n (c :: tail ++ rest))
  obtain ⟨more, hmore⟩ := hlonger
  have hin := isPrefix_numeralRun (n ++ (c :: tail ++ rest))
  rw [← hmore, List.prefix_append_right_inj] at hin
  cases more with
  | nil => rw [← hmore, List.append_nil]
  | cons a more =>
    -- then the run would go on with the first character of the attachment
    have ha : a = c := (List.cons_prefix_cons.1 hin).1
    have hne : numeralRun (n ++ (c :: tail ++ rest)) ≠ [] := by
      rw [← hmore]
      simp
    have hall := Rule.digit_or_point (numeralRun_mem hne)
    rw [← hmore] at hall
    exact absurd (hall c (by simp [ha])) (not_digit_or_point hc)

/-- Every number that a text begins with is a start of the one that is found: behind a shorter
numeral there is no attachment. -/
theorem prefix_numberRun (hw : w ∈ Rule.number.language) (h : w <+: text) :
    w <+: numberRun text := by
  obtain ⟨n, s, hn, hs, rfl⟩ := Rule.mem_number.1 hw
  have hrun := prefix_numeralRun hn ((List.prefix_append n s).trans h)
  have hne : (numeralRun text).isEmpty = false := by
    rw [List.isEmpty_eq_false_iff]
    intro hnil
    rw [hnil, List.prefix_nil] at hrun
    exact Rule.numeral_ne_nil hn hrun
  unfold numberRun
  simp only [hne, Bool.false_eq_true, ↓reduceIte]
  -- behind the longest numeral there is an attachment only if the word has one
  rcases hs with rfl | hs
  · rw [List.append_nil]
    exact hrun.trans (List.prefix_append ..)
  · obtain ⟨rest, rfl⟩ := h
    rw [List.append_assoc, numeralRun_attachment hn hs, List.drop_left,
      List.prefix_append_right_inj]
    exact prefix_suffixRun hs (List.prefix_append ..)

end Number

/-! ## First characters -/

namespace Rule

/-- Whether a word of the rule can begin with the character. -/
def begins : Rule → Char → Bool
  | number, c => isDecimalDigit c || c == '.'
  | name, c => c.isAlpha
  | sign, c => (Token.ofSymbol? c).isSome

variable {r s : Rule} {w : List Char} {c : Char}

/-- The signs are the characters that stand for a token. -/
theorem isSome_ofSymbol? :
    (Token.ofSymbol? c).isSome = ['+', '-', '*', '/', '^', '(', ')'].contains c := by
  cases h : Token.ofSymbol? c with
  | some t =>
    have hmem := mem_signs h
    simp only [List.mem_cons, List.not_mem_nil, or_false] at hmem
    rcases hmem with rfl | rfl | rfl | rfl | rfl | rfl | rfl <;> rfl
  | none =>
    symm
    rw [Option.isSome_none, Bool.eq_false_iff]
    intro hmem
    simp only [List.contains_iff_mem, List.mem_cons, List.not_mem_nil, or_false] at hmem
    rcases hmem with rfl | rfl | rfl | rfl | rfl | rfl | rfl <;> exact absurd h (by decide)

/-- A word is not empty, and it begins with a character of its rule. -/
theorem begins_of_mem (h : w ∈ r.language) : ∃ c rest, w = c :: rest ∧ r.begins c = true := by
  cases r with
  | number =>
    obtain ⟨n, s, hn, -, rfl⟩ := mem_number.1 h
    obtain ⟨c, rest, rfl⟩ := List.exists_cons_of_ne_nil (numeral_ne_nil hn)
    have hc := digit_or_point hn c List.mem_cons_self
    exact ⟨c, rest ++ s, rfl, by simpa [begins] using hc⟩
  | name =>
    obtain ⟨hne, hw⟩ := mem_someOf.1 h
    obtain ⟨c, rest, rfl⟩ := List.exists_cons_of_ne_nil hne
    exact ⟨c, rest, rfl, hw c List.mem_cons_self⟩
  | sign =>
    obtain ⟨c, hc, rfl⟩ := h
    exact ⟨c, [], rfl, by rw [begins, isSome_ofSymbol?]; exact hc⟩

/-- A text that begins with a word of a rule begins with a character of the rule. -/
theorem begins_of_prefix {rest : List Char} (h : w ∈ r.language) (hstart : w <+: c :: rest) :
    r.begins c = true := by
  obtain ⟨a, tail, rfl, ha⟩ := begins_of_mem h
  rw [← (List.cons_prefix_cons.1 hstart).1]
  exact ha

theorem begins_number_of_sign (h : sign.begins c = true) : number.begins c = false := by
  obtain ⟨t, ht⟩ := Option.isSome_iff_exists.1 h
  simp [begins, (breaks_sign ht).digit, (breaks_sign ht).point]

theorem begins_name_of_sign (h : sign.begins c = true) : name.begins c = false := by
  obtain ⟨t, ht⟩ := Option.isSome_iff_exists.1 h
  exact (breaks_sign ht).alpha

theorem begins_number_of_name (h : name.begins c = true) : number.begins c = false := by
  have hno := not_digit_or_point (.inl h)
  rw [Bool.eq_false_iff]
  intro hc
  exact hno (by simpa [begins] using hc)

/-- No character begins words of two rules. -/
theorem begins_unique (hr : r.begins c = true) (hs : s.begins c = true) : r = s := by
  have clash {b : Bool} (h : b = true) (h' : b = false) : r = s := absurd h (by simp [h'])
  -- every pair of rules is kept apart by one of the three facts above
  cases r with
  | number =>
    cases s with
    | number => rfl
    | name => exact clash hr (begins_number_of_name hs)
    | sign => exact clash hr (begins_number_of_sign hs)
  | name =>
    cases s with
    | number => exact clash hs (begins_number_of_name hr)
    | name => rfl
    | sign => exact clash hr (begins_name_of_sign hs)
  | sign =>
    cases s with
    | number => exact clash hs (begins_number_of_sign hr)
    | name => exact clash hs (begins_name_of_sign hr)
    | sign => rfl

theorem mem_sign_of_ofSymbol? {t : Token} (h : Token.ofSymbol? c = some t) :
    [c] ∈ sign.language := by
  have hc := isSome_ofSymbol? (c := c)
  rw [h, Option.isSome_some] at hc
  exact ⟨c, hc.symm, rfl⟩

theorem makes_of_ofSymbol? {t : Token} (h : Token.ofSymbol? c = some t) : Makes .sign [c] t := by
  unfold Token.ofSymbol? at h
  split at h
  · rename_i hc
    subst hc
    cases h
    exact .openParen
  · split at h
    · rename_i hc
      subst hc
      cases h
      exact .closeParen
    · obtain ⟨op, hfind, rfl⟩ := Option.map_eq_some_iff.1 h
      have hop := List.find?_some hfind
      rw [beq_iff_eq] at hop
      subst hop
      exact .operator op

theorem Makes.ne_endOfInput {t : Token} (h : r.Makes w t) : t ≠ .endOfInput := by
  cases h <;> simp

theorem Makes.literal {q : Quantity} (h : r.Makes w (.number q)) : Literal w q := by
  generalize ht : Token.number q = t at h
  cases h with
  | number hliteral =>
    cases ht
    exact hliteral
  | name | operator | openParen | closeParen => exact absurd ht (by simp)

/-- A rule makes one token of a word. -/
theorem Makes.unique {t u : Token} (ht : r.Makes w t) (hu : r.Makes w u) : t = u := by
  -- a word of the rule of signs is one character, and the character tells the token
  cases ht with
  | number h =>
    cases hu with
    | number h' =>
      have heq := Quantity.ofChars?_of_literal h
      rw [Quantity.ofChars?_of_literal h'] at heq
      cases heq
      rfl
  | name => cases hu; rfl
  | operator op =>
    generalize hw : [op.symbol] = w at hu
    cases hu with
    | operator op' =>
      have hsymbol := ofSymbol?_symbol op
      rw [(List.cons.inj hw).1, ofSymbol?_symbol op'] at hsymbol
      exact (Option.some.inj hsymbol).symm
    | openParen => cases op <;> exact absurd hw (by decide)
    | closeParen => cases op <;> exact absurd hw (by decide)
  | openParen =>
    generalize hw : ['('] = w at hu
    cases hu with
    | operator op' => cases op' <;> exact absurd hw (by decide)
    | openParen => rfl
    | closeParen => exact absurd hw (by decide)
  | closeParen =>
    generalize hw : [')'] = w at hu
    cases hu with
    | operator op' => cases op' <;> exact absurd hw (by decide)
    | openParen => exact absurd hw (by decide)
    | closeParen => rfl

end Rule

/-! ## The first lexeme -/

namespace Longest

variable {r s : Rule} {c : Char} {rest text w v : List Char}

/-- Only words of the rule that the first character belongs to are in question. -/
theorem of_begins (hc : r.begins c = true) (hmem : w ∈ r.language) (hstart : w <+: c :: rest)
    (hlongest : ∀ v, v ∈ r.language → v <+: c :: rest → v <+: w) : Longest r (c :: rest) w := by
  refine ⟨hmem, hstart, fun s v hv hprefix => ?_⟩
  obtain rfl := Rule.begins_unique (Rule.begins_of_prefix hv hprefix) hc
  exact (hlongest v hv hprefix).length_le

/-- There is one longest word, and it belongs to one rule. -/
theorem unique (hw : Longest r text w) (hv : Longest s text v) : r = s ∧ w = v := by
  have hlength := Nat.le_antisymm (hv.longest r w hw.mem hw.start) (hw.longest s v hv.mem hv.start)
  -- two starts of one text with the same length are the same
  have hwv : w = v := by
    rw [List.prefix_iff_eq_take.1 hw.start, List.prefix_iff_eq_take.1 hv.start, hlength]
  subst hwv
  obtain ⟨a, tail, htail, ha⟩ := Rule.begins_of_mem hw.mem
  obtain ⟨b, tail', htail', hb⟩ := Rule.begins_of_mem hv.mem
  rw [htail] at htail'
  obtain rfl := (List.cons.inj htail').1
  exact ⟨Rule.begins_unique ha hb, rfl⟩

theorem ne_nil (hw : Longest r text w) : w ≠ [] := by
  obtain ⟨c, tail, rfl, -⟩ := Rule.begins_of_mem hw.mem
  simp

/-- A word is the longest start of itself. -/
theorem of_mem (h : w ∈ r.language) : Longest r w w :=
  ⟨h, List.prefix_rfl, fun _ _ _ hv => hv.length_le⟩

/-- The longest name takes in all letters that come next. -/
theorem name (hc : c.isAlpha = true) :
    Longest .name (c :: rest) (c :: rest.takeWhile Char.isAlpha) := by
  have hrun : c :: rest.takeWhile Char.isAlpha = (c :: rest).takeWhile Char.isAlpha := by
    rw [List.takeWhile_cons, if_pos hc]
  rw [hrun]
  refine of_begins hc (mem_someOf.2 ⟨?_, List.all_eq_true.1 List.all_takeWhile⟩)
    (List.takeWhile_prefix _) fun v hv hprefix => prefix_takeWhile (mem_someOf.1 hv).2 hprefix
  rw [← hrun]
  simp

/-- The longest sign is the character itself. -/
theorem sign {t : Token} (hsymbol : Token.ofSymbol? c = some t) :
    Longest .sign (c :: rest) [c] := by
  have hc : Rule.sign.begins c = true := by rw [Rule.begins, hsymbol, Option.isSome_some]
  refine of_begins hc (Rule.mem_sign_of_ofSymbol? hsymbol) ?_ fun v hv hprefix => ?_
  · rw [List.cons_prefix_cons]
    exact ⟨rfl, List.nil_prefix⟩
  · obtain ⟨a, -, rfl⟩ := hv
    rw [(List.cons_prefix_cons.1 hprefix).1]

/-- The longest number is the one that the runs find. -/
theorem number (hne : numberRun (c :: rest) ≠ []) :
    Longest .number (c :: rest) (numberRun (c :: rest)) := by
  have hmem := numberRun_mem hne
  have hstart := isPrefix_numberRun (c :: rest)
  exact of_begins (Rule.begins_of_prefix hmem hstart) hmem hstart fun v => prefix_numberRun

end Longest

section FirstLexeme

variable {c : Char} {rest w : List Char} {t : Token} {fault : Fault}

/-- The first lexeme is the longest one, or there is none. -/
theorem firstLexeme_spec (c : Char) (rest : List Char) :
    match firstLexeme c rest with
    | .ok (t, w) => ∃ r, Longest r (c :: rest) w ∧ r.Makes w t
    | .error fault => NoLexeme (c :: rest) fault := by
  unfold firstLexeme
  -- the branches of the tokenizer are the rules, told apart by the first character
  by_cases halpha : c.isAlpha = true
  · simp only [halpha, ↓reduceIte]
    exact ⟨.name, .name halpha, .name _⟩
  · simp only [halpha, Bool.false_eq_true, ↓reduceIte]
    cases hsymbol : Token.ofSymbol? c with
    | some t => exact ⟨.sign, .sign hsymbol, Rule.makes_of_ofSymbol? hsymbol⟩
    | none =>
      by_cases hnumber : numberRun (c :: rest) = []
      · -- no rule has a word that begins with `c`
        simp only [hnumber, List.isEmpty_nil, ↓reduceIte]
        refine .unexpectedCharacter fun s v hv hprefix => ?_
        have hbegins := Rule.begins_of_prefix hv hprefix
        cases s with
        | number =>
          have hrun := prefix_numberRun hv hprefix
          obtain ⟨a, tail, rfl, -⟩ := Rule.begins_of_mem hv
          rw [hnumber] at hrun
          exact absurd (List.prefix_nil.1 hrun) (by simp)
        | name => exact halpha hbegins
        | sign =>
          rw [Rule.begins, hsymbol] at hbegins
          exact absurd hbegins (by simp)
      · have hne : (numberRun (c :: rest)).isEmpty = false := List.isEmpty_eq_false_iff.2 hnumber
        simp only [hne, Bool.false_eq_true, ↓reduceIte]
        cases hvalue : Quantity.ofChars? (numberRun (c :: rest)) with
        | some q => exact ⟨.number, .number hnumber, .number (Quantity.literal_of_ofChars? hvalue)⟩
        | none =>
          refine .malformedNumber (.number hnumber) fun q hq => ?_
          rw [Quantity.ofChars?_of_literal hq] at hvalue
          exact absurd hvalue (by simp)

/-- Where there is no lexeme, the longest word makes no token. -/
theorem NoLexeme.not_makes (h : NoLexeme (c :: rest) fault) {r : Rule}
    (hlongest : Longest r (c :: rest) w) : ¬ r.Makes w t := by
  cases h with
  | unexpectedCharacter hnone => exact absurd hlongest.start (hnone r w hlongest.mem)
  | malformedNumber hbad hno =>
    obtain ⟨rfl, rfl⟩ := hlongest.unique hbad
    intro hmakes
    cases hmakes with
    | number hliteral => exact hno _ hliteral

/-- The first lexeme is the longest word, with the token that its rule makes of it. -/
theorem firstLexeme_eq_ok :
    firstLexeme c rest = .ok (t, w) ↔ ∃ r, Longest r (c :: rest) w ∧ r.Makes w t := by
  have hspec := firstLexeme_spec c rest
  constructor
  · intro h
    rw [h] at hspec
    exact hspec
  · rintro ⟨r, hlongest, hmakes⟩
    cases h : firstLexeme c rest with
    | ok found =>
      obtain ⟨u, v⟩ := found
      rw [h] at hspec
      obtain ⟨s, hlongest', hmakes'⟩ := hspec
      obtain ⟨rfl, rfl⟩ := hlongest.unique hlongest'
      rw [hmakes.unique hmakes']
    | error fault =>
      rw [h] at hspec
      exact absurd hmakes (hspec.not_makes hlongest)

theorem noLexeme_of_firstLexeme (h : firstLexeme c rest = .error fault) :
    NoLexeme (c :: rest) fault := by
  have hspec := firstLexeme_spec c rest
  rw [h] at hspec
  exact hspec

end FirstLexeme

end UnitCalc
