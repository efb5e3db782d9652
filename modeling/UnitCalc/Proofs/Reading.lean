import Mathlib
import UnitCalc.Cursor

/-!
# What a cursor has read

`Cursor.Reads c w d` says that the tokens in front of the cursor `c` begin with `w`, and that `d`
is the cursor behind them. Only what is there is read: the end of the input never counts as a token.

* `Reads.trans`, `Reads.split`: readings join and can be cut anywhere.
* `Reads.unique`: the tokens decide where a reading stops.
* `Reads.tokens`, `exists_reads`: the same in terms of what is left to be read.
-/

namespace UnitCalc

namespace Cursor

/-- The tokens that are still to be read. -/
def tokens (c : Cursor) : List Token := c.rest.map Lexeme.token

/-- The tokens `w` stand in front of the first cursor, and the second one is behind them. -/
inductive Reads : Cursor → List Token → Cursor → Prop where
  | refl (c : Cursor) : Reads c [] c
  | step {c d : Cursor} {w : List Token} (hne : c.rest ≠ []) (hrest : Reads c.advance w d) :
      Reads c (c.peek.token :: w) d

/-! ## One token

What the cursor shows is the first of the tokens that are left, and the end of the input only if
there are none. -/

/-- In front of a lexeme, the tokens that are left begin with the one the cursor shows. -/
theorem tokens_eq_cons {c : Cursor} (hne : c.rest ≠ []) :
    c.tokens = c.peek.token :: c.advance.tokens := by
  obtain ⟨source, rest, taken⟩ := c
  cases rest with
  | nil => exact absurd rfl hne
  | cons lexeme rest => rfl

/-- If a token is left, then there is a lexeme, it has that token, and the others are left behind
it. -/
theorem peek_token_of_tokens {c : Cursor} {t : Token} {w : List Token} (h : c.tokens = t :: w) :
    c.rest ≠ [] ∧ c.peek.token = t ∧ c.advance.tokens = w := by
  have hne : c.rest ≠ [] := by
    intro hnil
    rw [tokens, hnil] at h
    exact absurd h (by simp)
  rw [tokens_eq_cons hne] at h
  exact ⟨hne, (List.cons.inj h).1, (List.cons.inj h).2⟩

/-- A cursor that shows anything but the end of the input stands in front of a lexeme. -/
theorem rest_ne_nil {c : Cursor} (h : c.peek.token ≠ .endOfInput) : c.rest ≠ [] := by
  intro hnil
  apply h
  rw [peek, hnil]
  rfl

/-- A token that the cursor shows is read by one step, unless it is the end of the input. -/
theorem reads_one {c : Cursor} {t : Token} (h : c.peek.token = t) (ht : t ≠ .endOfInput) :
    Reads c [t] c.advance := by
  subst h
  exact .step (rest_ne_nil ht) (.refl _)

/-! ## Joining and cutting -/

theorem Reads.trans {c d e : Cursor} {w v : List Token} (h1 : Reads c w d) (h2 : Reads d v e) :
    Reads c (w ++ v) e := by
  induction h1 with
  | refl _ => exact h2
  | step hne _ ih => exact .step hne (ih h2)

theorem Reads.head {c e : Cursor} {t : Token} {w : List Token} (h : Reads c (t :: w) e) :
    c.peek.token = t ∧ Reads c.advance w e := by
  cases h with
  | step _ hrest => exact ⟨rfl, hrest⟩

/-- A reading can be cut between any two of its tokens. -/
theorem Reads.split {c e : Cursor} {w v : List Token} (h : Reads c (w ++ v) e) :
    ∃ d, Reads c w d ∧ Reads d v e := by
  -- one token after the other, from wherever the cursor stands
  induction w generalizing c with
  | nil => exact ⟨c, .refl c, h⟩
  | cons t w ih =>
    cases h with
    | step hne hrest =>
      obtain ⟨d, hw, hv⟩ := ih hrest
      exact ⟨d, .step hne hw, hv⟩

/-- What is read decides where the cursor is afterwards. -/
theorem Reads.unique {c d e : Cursor} {w : List Token} (h1 : Reads c w d) (h2 : Reads c w e) :
    d = e := by
  induction h1 with
  | refl c => cases h2; rfl
  | step _ _ ih => exact ih h2.head.2

/-! ## What is left -/

/-- What was left is what was read and what is left now. -/
theorem Reads.tokens {c d : Cursor} {w : List Token} (h : Reads c w d) :
    c.tokens = w ++ d.tokens := by
  induction h with
  | refl _ => rfl
  | step hne _ ih => rw [tokens_eq_cons hne, ih, List.cons_append]

/-- Tokens that are left can be read. -/
theorem exists_reads {c : Cursor} {w v : List Token} (h : c.tokens = w ++ v) :
    ∃ d, Reads c w d ∧ d.tokens = v := by
  induction w generalizing c with
  | nil => exact ⟨c, .refl c, h⟩
  | cons t w ih =>
    obtain ⟨hne, hpeek, htail⟩ := peek_token_of_tokens h
    obtain ⟨d, hd, hv⟩ := ih htail
    subst hpeek
    exact ⟨d, .step hne hd, hv⟩

end Cursor

end UnitCalc
