import Mathlib
import UnitCalc.Proofs.Lexeme.Parentheses

/-!
# What the structural checks find

The three checks of a sequence of tokens scan it from the left. What they look for can be said
without a scan: neighbours that are both numbers, neighbours that are operators and clash, a start
of the sequence that closes more parentheses than it opens, and a sequence that leaves some open.

* `hasAdjacentNumbers_iff`: numbers side by side.
* `operatorFault?_eq_none_iff`, `operatorFault?_of_firstClash`: operators that clash, and the first
  pair of them, which decides the fault.
* `parenthesisFault?_eq_unmatchedClosing`, `parenthesisFault?_of_not_overcloses`: the counter of the
  scan against the counts of the starts. The induction is on the sequence, for any number of
  parentheses that are open already.
* `checkArrangement_priority`: the faults in the order of their priority.
-/

namespace UnitCalc

/-! ## Numbers -/

/-- Two numbers stand side by side. -/
def NumbersMeet (w : List Token) : Prop := ∃ p q : Quantity, [.number p, .number q] <:+: w

theorem isNumber_iff {t : Token} : t.isNumber = true ↔ ∃ q, t = .number q := by
  cases t <;> simp [Token.isNumber]

/-- The first check finds two numbers side by side, wherever they stand. -/
theorem hasAdjacentNumbers_iff {w : List Token} : hasAdjacentNumbers w = true ↔ NumbersMeet w := by
  unfold NumbersMeet
  induction w with
  | nil => simp [hasAdjacentNumbers]
  | cons a w ih =>
    cases w with
    | nil => simp [hasAdjacentNumbers, List.infix_cons_iff]
    | cons b w =>
      rw [hasAdjacentNumbers, Bool.or_eq_true, Bool.and_eq_true, isNumber_iff, isNumber_iff, ih]
      constructor
      · rintro (⟨⟨p, rfl⟩, q, rfl⟩ | ⟨p, q, hpair⟩)
        · exact ⟨p, q, [], w, rfl⟩
        · exact ⟨p, q, List.infix_cons hpair⟩
      · rintro ⟨p, q, hpair⟩
        -- two numbers stand at the front, or behind the first token
        rcases List.infix_cons_iff.1 hpair with hhead | htail
        · obtain ⟨ha, hsecond⟩ := List.cons_prefix_cons.1 hhead
          obtain ⟨hb, -⟩ := List.cons_prefix_cons.1 hsecond
          exact .inl ⟨⟨p, ha.symm⟩, q, hb.symm⟩
        · exact .inr ⟨p, q, htail⟩

/-! ## Operators -/

/-- The operators may not stand side by side in this order. Only a minus sign may come second, and
not behind another one. -/
def Clash (a b : Operator) : Prop := ¬ (a ≠ .subtract ∧ b = .subtract)

/-- Two operators that stand side by side clash. -/
def OperatorsClash (w : List Token) : Prop :=
  ∃ a b, [.operator a, .operator b] <:+: w ∧ Clash a b

/-- From the left, these are the first two operators that clash. -/
def FirstClash (w : List Token) (a b : Operator) : Prop :=
  ∃ before after : List Token, w = before ++ .operator a :: .operator b :: after ∧ Clash a b ∧
    ¬ OperatorsClash (before ++ [.operator a])

/-- The fault of two operators that clash. -/
def clashFault (a b : Operator) : Fault :=
  if a = .subtract ∧ b = .subtract then .doubleMinus else .consecutiveOperators

/-- Two operators that clash are a fault. It is named after a pair of minus signs, and otherwise
after operators in a row. -/
theorem operatorPairFault?_of_clash {a b : Operator} (h : Clash a b) :
    operatorPairFault? (.operator a) (.operator b) = some (clashFault a b) := by
  by_cases hb : b = .subtract
  · subst hb
    obtain rfl : a = .subtract := by_contra fun ha => h ⟨ha, rfl⟩
    rfl
  · cases b with
    | subtract => exact absurd rfl hb
    | _ => cases a <;> rfl

/-- Nothing but two operators that clash is a fault of a pair. -/
theorem operatorPairFault?_eq_none_iff {s t : Token} :
    operatorPairFault? s t = none ↔ ∀ a b, s = .operator a → t = .operator b → ¬ Clash a b := by
  constructor
  · rintro hnone a b rfl rfl hclash
    rw [operatorPairFault?_of_clash hclash] at hnone
    exact absurd hnone (by simp)
  · intro hpair
    cases s with
    | operator a =>
      cases t with
      | operator b =>
        obtain ⟨ha, rfl⟩ := not_not.1 (hpair a b rfl rfl)
        cases a with
        | subtract => exact absurd rfl ha
        | _ => rfl
      | _ => exact operatorPairFault?_eq_none (.inr rfl)
    | _ => exact operatorPairFault?_eq_none (.inl rfl)

/-- A clash is at the start of a sequence or behind its first token. -/
theorem operatorsClash_cons {t : Token} {w : List Token} :
    OperatorsClash (t :: w) ↔
      (∃ a b, [.operator a, .operator b] <+: t :: w ∧ Clash a b) ∨ OperatorsClash w := by
  simp only [OperatorsClash, List.infix_cons_iff, or_and_right, exists_or]

theorem not_operatorsClash_singleton (t : Token) : ¬ OperatorsClash [t] := by
  rintro ⟨a, b, hpair, -⟩
  exact absurd hpair.length_le (by simp)

/-- The second check finds nothing exactly if no two operators clash. -/
theorem operatorFault?_eq_none_iff {w : List Token} :
    operatorFault? w = none ↔ ¬ OperatorsClash w := by
  induction w with
  | nil => simp [operatorFault?, OperatorsClash]
  | cons s w ih =>
    rw [operatorsClash_cons, not_or, ← ih]
    cases w with
    | nil => simp [operatorFault?, List.prefix_cons_iff]
    | cons t w =>
      -- the pair at the front; the other pairs are those of the rest
      have hhead : operatorPairFault? s t = none ↔
          ¬ ∃ a b, [.operator a, .operator b] <+: s :: t :: w ∧ Clash a b := by
        rw [operatorPairFault?_eq_none_iff]
        simp only [List.cons_prefix_cons, List.nil_prefix, and_true, not_exists, not_and]
        constructor
        · rintro hpair a b ⟨rfl, rfl⟩
          exact hpair a b rfl rfl
        · rintro hpair a b rfl rfl
          exact hpair a b ⟨rfl, rfl⟩
      rw [operatorFault?, ← hhead]
      cases operatorPairFault? s t with
      | none => simp
      | some fault => simp

/-- Two stretches that share a token have the pairs of both. -/
theorem operatorFault?_overlap (u v : List Token) (t : Token) :
    operatorFault? (u ++ t :: v) = (operatorFault? (u ++ [t])).or (operatorFault? (t :: v)) := by
  induction u with
  | nil => rfl
  | cons s u ih =>
    cases u with
    | nil =>
      show operatorFault? (s :: t :: v) = (operatorFault? [s, t]).or _
      rw [operatorFault?, operatorFault?]
      cases operatorPairFault? s t <;> rfl
    | cons r u =>
      show operatorFault? (s :: r :: (u ++ t :: v)) =
        (operatorFault? (s :: r :: (u ++ [t]))).or _
      rw [operatorFault?, operatorFault?]
      cases operatorPairFault? s r with
      | none => exact ih
      | some fault => rfl

/-- The second check finds the first clash. In front of it there is none, and the pair itself is a
fault. -/
theorem operatorFault?_of_firstClash {w : List Token} {a b : Operator} (h : FirstClash w a b) :
    operatorFault? w = some (clashFault a b) := by
  obtain ⟨before, after, rfl, hclash, hfirst⟩ := h
  rw [operatorFault?_overlap, operatorFault?_eq_none_iff.2 hfirst, Option.none_or, operatorFault?]
  simp only [operatorPairFault?_of_clash hclash]

/-- Where operators clash, two of them are the first. -/
theorem exists_firstClash {w : List Token} (h : OperatorsClash w) : ∃ a b, FirstClash w a b := by
  induction w with
  | nil => exact absurd h (by simp [OperatorsClash])
  | cons t w ih =>
    by_cases hhead : ∃ a b, [.operator a, .operator b] <+: t :: w ∧ Clash a b
    · obtain ⟨a, b, ⟨after, hpair⟩, hclash⟩ := hhead
      exact ⟨a, b, [], after, hpair.symm, hclash, not_operatorsClash_singleton _⟩
    · obtain ⟨a, b, before, after, rfl, hclash, hfirst⟩ :=
        ih ((operatorsClash_cons.1 h).resolve_left hhead)
      refine ⟨a, b, t :: before, after, rfl, hclash, ?_⟩
      rw [List.cons_append, operatorsClash_cons]
      rintro (⟨c, d, hpair, hclash'⟩ | hbehind)
      · -- a start of the part before the clash is a start of the whole
        refine hhead ⟨c, d, hpair.trans ?_, hclash'⟩
        exact ⟨.operator b :: after, by simp⟩
      · exact hfirst hbehind

/-! ## Parentheses -/

/-- With this many parentheses open, some start of the sequence closes more than are open. -/
def Overcloses (opened : Nat) (w : List Token) : Prop :=
  ∃ p, p <+: w ∧ opened + p.count .openParen < p.count .closeParen

/-- A start that is not empty begins with the first token. -/
theorem overcloses_cons {opened : Nat} {t : Token} {w : List Token} :
    Overcloses opened (t :: w) ↔ ∃ p, p <+: w ∧
      opened + (t :: p).count .openParen < (t :: p).count .closeParen := by
  constructor
  · rintro ⟨p, hp, hlt⟩
    rcases List.prefix_cons_iff.1 hp with rfl | ⟨behind, rfl, hbehind⟩
    · exact absurd hlt (by simp)
    · exact ⟨behind, hbehind, hlt⟩
  · rintro ⟨p, hp, hlt⟩
    exact ⟨t :: p, List.cons_prefix_cons.2 ⟨rfl, hp⟩, hlt⟩

theorem overcloses_openParen {opened : Nat} {w : List Token} :
    Overcloses opened (.openParen :: w) ↔ Overcloses (opened + 1) w := by
  rw [overcloses_cons]
  have hne : Token.openParen ≠ .closeParen := by decide
  simp only [List.count_cons_self, List.count_cons_of_ne hne, Overcloses, Nat.add_assoc,
    Nat.add_comm 1]

/-- Behind a closing parenthesis one less may be closed, and if none was open, the parenthesis
itself is one too many. -/
theorem overcloses_closeParen {opened : Nat} {w : List Token} :
    Overcloses opened (.closeParen :: w) ↔ opened = 0 ∨ Overcloses (opened - 1) w := by
  rw [overcloses_cons]
  have hne : Token.closeParen ≠ .openParen := by decide
  simp only [List.count_cons_self, List.count_cons_of_ne hne]
  constructor
  · rintro ⟨p, hp, hlt⟩
    by_cases hopened : opened = 0
    · exact .inl hopened
    · exact .inr ⟨p, hp, by omega⟩
  · rintro (rfl | ⟨p, hp, hlt⟩)
    · exact ⟨[], List.nil_prefix, by simp⟩
    · exact ⟨p, hp, by omega⟩

theorem overcloses_other {opened : Nat} {t : Token} {w : List Token} (hopen : t ≠ .openParen)
    (hclose : t ≠ .closeParen) : Overcloses opened (t :: w) ↔ Overcloses opened w := by
  rw [overcloses_cons]
  simp only [List.count_cons_of_ne hopen, List.count_cons_of_ne hclose, Overcloses]

theorem parenthesisFault?_other {opened : Nat} {t : Token} {w : List Token}
    (hopen : t ≠ .openParen) (hclose : t ≠ .closeParen) :
    parenthesisFault? opened (t :: w) = parenthesisFault? opened w := by
  rw [parenthesisFault?]
  · exact hopen
  · exact hclose

/-- The scan stops at a closing parenthesis exactly if some start closes more than are open. -/
theorem parenthesisFault?_eq_unmatchedClosing {opened : Nat} {w : List Token} :
    parenthesisFault? opened w = some .unmatchedClosing ↔ Overcloses opened w := by
  induction w generalizing opened with
  | nil => simp [parenthesisFault?, Overcloses]
  | cons t w ih =>
    -- the scan makes one step for each sort of token, and so do the starts of the sequence
    by_cases hopen : t = .openParen
    · subst hopen
      rw [parenthesisFault?, ih, overcloses_openParen]
    · by_cases hclose : t = .closeParen
      · subst hclose
        rw [parenthesisFault?, overcloses_closeParen]
        split
        · rename_i hopened
          simp [hopened]
        · rename_i hopened
          rw [ih, or_iff_right hopened]
      · rw [parenthesisFault?_other hopen hclose, ih, overcloses_other hopen hclose]

/-- If no start closes too many, the scan comes to the end, and the counts of the whole decide. -/
theorem parenthesisFault?_of_not_overcloses {opened : Nat} {w : List Token}
    (h : ¬ Overcloses opened w) :
    parenthesisFault? opened w =
      if w.count .closeParen < opened + w.count .openParen then some .unmatchedOpening
      else none := by
  induction w generalizing opened with
  | nil => simp [parenthesisFault?, Nat.pos_iff_ne_zero]
  | cons t w ih =>
    by_cases hopen : t = .openParen
    · subst hopen
      rw [parenthesisFault?, ih (mt overcloses_openParen.2 h), List.count_cons_self,
        List.count_cons_of_ne (by decide), Nat.add_assoc, Nat.add_comm 1]
    · by_cases hclose : t = .closeParen
      · subst hclose
        rw [overcloses_closeParen, not_or] at h
        obtain ⟨hopened, hrest⟩ := h
        -- one parenthesis less is open, and one less is left to be closed
        have hcount : w.count .closeParen < opened - 1 + w.count .openParen ↔
            w.count .closeParen + 1 < opened + w.count .openParen := by omega
        rw [parenthesisFault?, if_neg hopened, ih hrest, List.count_cons_self,
          List.count_cons_of_ne (by decide)]
        simp only [hcount]
      · rw [parenthesisFault?_other hopen hclose, ih (mt (overcloses_other hopen hclose).2 h),
          List.count_cons_of_ne hopen, List.count_cons_of_ne hclose]

/-- Nothing is left open behind a sequence whose parentheses pair up. -/
theorem count_of_parenthesisFault?_eq_none {opened : Nat} {w : List Token}
    (h : parenthesisFault? opened w = none) :
    ¬ Overcloses opened w ∧ opened + w.count .openParen ≤ w.count .closeParen := by
  have hover : ¬ Overcloses opened w := by
    intro hover
    rw [parenthesisFault?_eq_unmatchedClosing.2 hover] at h
    exact absurd h (by simp)
  rw [parenthesisFault?_of_not_overcloses hover] at h
  split at h
  · exact absurd h (by simp)
  · exact ⟨hover, by omega⟩

/-- The last token of such a sequence opens nothing. -/
theorem parenthesisFault?_concat_openParen (opened : Nat) (w : List Token) :
    parenthesisFault? opened (w ++ [.openParen]) ≠ none := by
  intro h
  obtain ⟨hover, hcount⟩ := count_of_parenthesisFault?_eq_none h
  have hopen : (w ++ [Token.openParen]).count .openParen = w.count .openParen + 1 := by simp
  have hclose : (w ++ [Token.openParen]).count .closeParen = w.count .closeParen := by simp
  exact hover ⟨w, List.prefix_append w _, by omega⟩

/-! ## The checks together -/

section Priority

variable {w : List Token} {a b : Operator}

/-- Without numbers side by side, the other two checks decide. -/
theorem arrangementFault?_of_not_numbersMeet (hnumbers : ¬ NumbersMeet w) :
    arrangementFault? w = (operatorFault? w).or (parenthesisFault? 0 w) :=
  if_neg (mt hasAdjacentNumbers_iff.1 hnumbers)

/-- A clash comes before anything that is wrong with parentheses. -/
theorem arrangementFault?_of_firstClash (hnumbers : ¬ NumbersMeet w) (h : FirstClash w a b) :
    arrangementFault? w = some (clashFault a b) := by
  rw [arrangementFault?_of_not_numbersMeet hnumbers, operatorFault?_of_firstClash h]
  rfl

theorem arrangementFault?_of_not_operatorsClash (hnumbers : ¬ NumbersMeet w)
    (hoperators : ¬ OperatorsClash w) : arrangementFault? w = parenthesisFault? 0 w := by
  rw [arrangementFault?_of_not_numbersMeet hnumbers, operatorFault?_eq_none_iff.2 hoperators,
    Option.none_or]

/-- The checks for operators and parentheses have faults of their own. -/
theorem arrangementFault?_eq_adjacentNumbers :
    arrangementFault? w = some .adjacentNumbers ↔ NumbersMeet w := by
  constructor
  · intro hfault
    -- the fault would be one of the other two checks, and theirs are others
    by_contra hnumbers
    by_cases hoperators : OperatorsClash w
    · obtain ⟨a, b, hfirst⟩ := exists_firstClash hoperators
      rw [arrangementFault?_of_firstClash hnumbers hfirst, clashFault] at hfault
      split at hfault
      · exact absurd hfault (by simp)
      · exact absurd hfault (by simp)
    · rw [arrangementFault?_of_not_operatorsClash hnumbers hoperators] at hfault
      by_cases hover : Overcloses 0 w
      · rw [parenthesisFault?_eq_unmatchedClosing.2 hover] at hfault
        exact absurd hfault (by simp)
      · rw [parenthesisFault?_of_not_overcloses hover] at hfault
        split at hfault
        · exact absurd hfault (by simp)
        · exact absurd hfault (by simp)
  · intro hnumbers
    exact if_pos (hasAdjacentNumbers_iff.2 hnumbers)

end Priority

/-- The check of lexemes looks at their tokens only. -/
theorem checkArrangement_eq_error {lexemes : List Lexeme} {fault : Fault} :
    checkArrangement lexemes = .error fault ↔
      arrangementFault? (lexemes.map Lexeme.token) = some fault := by
  unfold checkArrangement
  cases arrangementFault? (lexemes.map Lexeme.token) <;> simp

/-- Neighbours that are both numbers are found first, wherever they stand. Then come operators that
clash, and the first two of them from the left decide the fault. Of the parentheses, a start of the
sequence that closes more than it opens comes before a sequence that opens more than it closes. A
sequence with none of these is accepted. -/
theorem checkArrangement_priority (lexemes : List Lexeme) :
    let w := lexemes.map Lexeme.token
    let result := checkArrangement lexemes
    let closesTooMany := ∃ p, p <+: w ∧ p.count .openParen < p.count .closeParen
    let leavesOpen := w.count .closeParen < w.count .openParen
    (result = .error .adjacentNumbers ↔ NumbersMeet w) ∧
      (¬ NumbersMeet w →
        (OperatorsClash w →
          (∃ a b, FirstClash w a b) ∧
            ∀ a b, FirstClash w a b →
              result = .error (if a = .subtract ∧ b = .subtract then .doubleMinus
                else .consecutiveOperators)) ∧
        (¬ OperatorsClash w →
          (result = .error .unmatchedClosing ↔ closesTooMany) ∧
          (¬ closesTooMany →
            (result = .error .unmatchedOpening ↔ leavesOpen) ∧
            (¬ leavesOpen → result = .ok ⟨⟩)))) := by
  intro w result closesTooMany leavesOpen
  have herror (fault : Fault) : result = .error fault ↔ arrangementFault? w = some fault :=
    checkArrangement_eq_error
  have hover : Overcloses 0 w ↔ closesTooMany := by
    simp only [Overcloses, closesTooMany, Nat.zero_add]
  refine ⟨?_, fun hnumbers => ⟨fun hclash => ⟨exists_firstClash hclash, fun a b hfirst => ?_⟩,
    fun hoperators => ?_⟩⟩
  · rw [herror, arrangementFault?_eq_adjacentNumbers]
  · exact (herror _).2 (arrangementFault?_of_firstClash hnumbers hfirst)
  · -- from here on the parentheses decide
    have hparentheses := arrangementFault?_of_not_operatorsClash hnumbers hoperators
    refine ⟨?_, fun hclosed => ?_⟩
    · rw [herror, hparentheses, parenthesisFault?_eq_unmatchedClosing, hover]
    · have hbalance := parenthesisFault?_of_not_overcloses (mt hover.1 hclosed)
      rw [Nat.zero_add] at hbalance
      refine ⟨?_, fun hleaves => ?_⟩
      · rw [herror, hparentheses, hbalance]
        simp [leavesOpen]
      · rw [if_neg hleaves] at hbalance
        exact checkArrangement_eq_ok.2 (hparentheses.trans hbalance)

/-- The parenthesis in `((x)` that is left open is what is wrong with it, and nothing else. -/
theorem checkArrangement_priority_opening :
    let lexemes : List Lexeme :=
      [⟨.openParen, "(", 0, 1, ⟨1, 1⟩⟩, ⟨.openParen, "(", 1, 2, ⟨1, 2⟩⟩,
        ⟨.name "x", "x", 2, 3, ⟨1, 3⟩⟩, ⟨.closeParen, ")", 3, 4, ⟨1, 4⟩⟩]
    let w := lexemes.map Lexeme.token
    checkArrangement lexemes = .error .unmatchedOpening ∧ ¬ NumbersMeet w ∧ ¬ OperatorsClash w ∧
      (¬ ∃ p, p <+: w ∧ p.count .openParen < p.count .closeParen) ∧
      w.count .closeParen < w.count .openParen := by
  intro lexemes w
  -- the check is run once; what is not wrong with the sequence follows from the fault that it finds
  have hcheck : checkArrangement lexemes = .error .unmatchedOpening := by cbv
  obtain ⟨hmeet, hclash⟩ := checkArrangement_priority lexemes
  have hapart : ¬ NumbersMeet w := by
    intro hnumbers
    exact absurd (hcheck.symm.trans (hmeet.2 hnumbers)) (by simp)
  obtain ⟨hfirst, hparens⟩ := hclash hapart
  have hno : ¬ OperatorsClash w := by
    intro hoperators
    obtain ⟨⟨a, b, hab⟩, hfault⟩ := hfirst hoperators
    have heq := hcheck.symm.trans (hfault a b hab)
    split at heq
    · exact absurd heq (by simp)
    · exact absurd heq (by simp)
  obtain ⟨hcloses, hopening⟩ := hparens hno
  have hfew : ¬ ∃ p, p <+: w ∧ p.count .openParen < p.count .closeParen := by
    intro hmany
    exact absurd (hcheck.symm.trans (hcloses.2 hmany)) (by simp)
  exact ⟨hcheck, hapart, hno, hfew, (hopening hfew).1.1 hcheck⟩

end UnitCalc
