import Mathlib
import UnitCalc.Answer
import UnitCalc.Proofs.Lexeme.Respaced
import UnitCalc.Proofs.Parse.Places

/-!
# White space

White space between lexemes does not matter. Writing the lexemes of a text down again with other
blanks around them gives a text of the same words (`tokenize_respaced`), and words are all that is
checked, read and evaluated (`checkArrangement_eq_of_words`, `Grammar.parse_alike`).
-/

namespace UnitCalc

/-- Texts of the same words have like trees. The check of the arrangement looks at no place, and the
parser only hands the place of an unknown name on. -/
theorem ofText_alike (scope : Scope) {text text' : String} {lexemes moved : List Lexeme}
    (htext : tokenize text = .ok lexemes) (htext' : tokenize text' = .ok moved)
    (hwords : moved.map Lexeme.word = lexemes.map Lexeme.word) :
    Alike (Expr.ofText scope text') (Expr.ofText scope text) := by
  rw [Expr.ofText, Expr.ofText, htext, htext']
  show Alike (checkArrangement moved >>= fun _ => Grammar.parse _ text' moved)
    (checkArrangement lexemes >>= fun _ => Grammar.parse _ text lexemes)
  rw [checkArrangement_eq_of_words hwords]
  cases checkArrangement lexemes with
  | error fault => exact .refl _
  | ok => exact Grammar.parse_alike _ text' text hwords

/-- A text whose lexemes are written down again with other blanks around them has the same tokens,
the same texts of lexemes and the same value or fault. Only the place of an unknown name may
change. -/
theorem evaluate_respaced {text first : String} {lexemes : List Lexeme} {behind : List String}
    (htext : tokenize text = .ok lexemes) (hspacing : Spacing lexemes first behind) :
    (∃ moved, tokenize (respaced lexemes first behind) = .ok moved ∧
      moved.map Lexeme.token = lexemes.map Lexeme.token ∧
        moved.map Lexeme.text = lexemes.map Lexeme.text) ∧
      ∀ scope, Alike (evaluate scope (respaced lexemes first behind)) (evaluate scope text) := by
  obtain ⟨moved, hmoved, hwords⟩ := tokenize_respaced htext hspacing
  have htokens := congrArg (List.map Prod.fst) hwords
  have htexts := congrArg (List.map Prod.snd) hwords
  rw [List.map_map, List.map_map] at htokens htexts
  refine ⟨⟨moved, hmoved, htokens, htexts⟩, fun scope => ?_⟩
  exact (ofText_alike scope htext hmoved hwords).bind _

/-- Blanks of one, two and three bytes between all four words, and one in front. -/
theorem evaluate_respaced_power :
    let lexemes : List Lexeme :=
      [⟨.name "x", "x", 0, 1, ⟨1, 1⟩⟩, ⟨.operator .power, "^", 1, 2, ⟨1, 2⟩⟩,
        ⟨.operator .subtract, "-", 2, 3, ⟨1, 3⟩⟩, ⟨.name "y", "y", 3, 4, ⟨1, 4⟩⟩]
    tokenize "x^-y" = .ok lexemes ∧ Spacing lexemes "\t" [" ", "\n\u2003", "\u3000", ""] ∧
      ∀ scope, Alike (evaluate scope "\tx ^\n\u2003-\u3000y") (evaluate scope "x^-y") := by
  intro lexemes
  have htext : tokenize "x^-y" = .ok lexemes := by cbv
  have hspacing : Spacing lexemes "\t" [" ", "\n\u2003", "\u3000", ""] :=
    ⟨rfl, by simp [isBlank, blankRanges], by simp⟩
  exact ⟨htext, hspacing, (evaluate_respaced htext hspacing).2⟩

end UnitCalc
