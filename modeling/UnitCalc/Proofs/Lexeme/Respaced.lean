import Mathlib
import UnitCalc.Proofs.Lexeme.MaximalMunch
import UnitCalc.Proofs.Lexeme.Words

/-!
# The same words with other blanks

The lexemes of a text may be written down again with any blanks around them, as long as there is at
least one between two of them. Each lexeme is a word of its own (`wordsOf_text`), a blank breaks the
text behind it, and so the text says the same as before (`tokenize_respaced`).
-/

namespace UnitCalc

/-- Blanks in front of the lexemes and behind each of them. Only behind the last one there may be
none. -/
structure Spacing (lexemes : List Lexeme) (first : String) (behind : List String) : Prop where
  length : behind.length = lexemes.length
  blank : ∀ w ∈ first :: behind, ∀ c ∈ w.toList, isBlank c = true
  apart : ∀ w ∈ behind.dropLast, w ≠ ""

/-- The texts of the lexemes with the given blanks around them. -/
def respaced (lexemes : List Lexeme) (first : String) (behind : List String) : String :=
  first ++ String.join (List.zipWith (fun l w => l.text ++ w) lexemes behind)

/-- Blanks in front of a text say nothing. -/
theorem wordsOf_blanks {w : List Char} (hw : ∀ c ∈ w, isBlank c = true) (rest : List Char) :
    wordsOf (w ++ rest) = wordsOf rest := by
  induction w with
  | nil => rfl
  | cons c w ih =>
    obtain ⟨hc, hw⟩ := List.forall_mem_cons.1 hw
    rw [List.cons_append, wordsOf_blank hc, ih hw]

/-- Every lexeme of a text says the same on its own. -/
theorem wordsOf_text {text : String} {lexemes : List Lexeme} (h : tokenize text = .ok lexemes) :
    ∀ l ∈ lexemes, wordsOf l.text.toList = .ok [l.word] := by
  intro l hl
  obtain ⟨_, _, r, _, _, _, hlongest, hmakes⟩ := (decomposition_of_tokenize h).cut l hl
  have hword := wordsOf_alone hlongest.mem hmakes
  rw [String.ofList_toList] at hword
  exact hword

/-- The lexemes with the blanks behind them are the words of the lexemes. -/
theorem wordsOf_join {lexemes : List Lexeme} {behind : List String}
    (hlexemes : ∀ l ∈ lexemes, wordsOf l.text.toList = .ok [l.word])
    (hlength : behind.length = lexemes.length)
    (hblank : ∀ w ∈ behind, ∀ c ∈ w.toList, isBlank c = true)
    (hapart : ∀ w ∈ behind.dropLast, w ≠ "") :
    wordsOf (String.join (List.zipWith (fun l w => l.text ++ w) lexemes behind)).toList =
      .ok (lexemes.map Lexeme.word) := by
  -- the lexemes and the blanks behind them get shorter together
  induction lexemes generalizing behind with
  | nil => exact wordsOf_nil
  | cons l lexemes ih =>
    cases behind with
    | nil => exact absurd hlength (by simp)
    | cons w behind =>
      obtain ⟨hl, hlexemes⟩ := List.forall_mem_cons.1 hlexemes
      obtain ⟨hw, hblank⟩ := List.forall_mem_cons.1 hblank
      rw [List.zipWith_cons_cons, String.join_cons, String.toList_append, String.toList_append,
        List.append_assoc]
      cases hcs : w.toList with
      | nil =>
        -- the lexeme is the last one, and nothing stands behind it
        have hlast : behind = [] := by
          by_contra hne
          rw [List.dropLast_cons_of_ne_nil hne] at hapart
          exact hapart w List.mem_cons_self (String.toList_eq_nil_iff.1 hcs)
        subst hlast
        obtain rfl : lexemes = [] := List.length_eq_zero_iff.1 (Nat.succ.inj hlength).symm
        rw [List.zipWith_nil_left, String.join_nil, String.toList_empty, List.append_nil,
          List.append_nil]
        exact hl
      | cons c cs =>
        -- the blank behind the lexeme breaks the text
        have hrest : wordsOf (String.join (List.zipWith (fun l w => l.text ++ w) lexemes
            behind)).toList = .ok (lexemes.map Lexeme.word) := by
          refine ih hlexemes (Nat.succ.inj hlength) hblank fun v hv => hapart v ?_
          cases behind with
          | nil => exact absurd hv (by simp)
          | cons u behind => exact List.mem_cons_of_mem w hv
        rw [← wordsOf_blanks hw, hcs] at hrest
        rw [hcs] at hw
        exact wordsOf_append (breaks_blank (hw c List.mem_cons_self)) hl hrest

/-- The lexemes written down again are the same words. -/
theorem tokenize_respaced {text first : String} {lexemes : List Lexeme} {behind : List String}
    (htext : tokenize text = .ok lexemes) (hspacing : Spacing lexemes first behind) :
    ∃ moved, tokenize (respaced lexemes first behind) = .ok moved ∧
      moved.map Lexeme.word = lexemes.map Lexeme.word := by
  obtain ⟨hfirst, hblank⟩ := List.forall_mem_cons.1 hspacing.blank
  have hwords := wordsOf_join (wordsOf_text htext) hspacing.length hblank hspacing.apart
  -- the blanks in front are put back, which changes no word
  rw [← wordsOf_blanks hfirst, ← String.toList_append, ← tokenize_words] at hwords
  exact exists_of_map_eq_ok hwords

end UnitCalc
