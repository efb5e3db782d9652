import Mathlib
import UnitCalc.Proofs.Parse.Continuation

/-!
# What a scope is asked for

A scope is asked for the meanings of names, and only for names that stand among the lexemes. So a
reading under one scope is compared with a reading of the same lexemes under a second scope that
means by these names what the first one means, and perhaps knows more of them.

* `Outcome.Settled`: an outcome stays as it is, unless it was the fault of a name that the first
  scope does not know and the second one does. The two grammars compare by this relation
  (`comparison_settled`), since a name that both scopes know, or that neither knows, is the same
  step in both runs.
* `Calls.rest_suffix`: a call reads an end of the lexemes of its caller, so that no routine comes to
  a name from elsewhere.
-/

namespace UnitCalc

/-- What the first scope means by the names among the lexemes, the second one means too. -/
def Scope.ExtendedOn (A B : Scope) (lexemes : List Lexeme) : Prop :=
  ∀ l ∈ lexemes, ∀ name, l.token = .name name → A name ≠ none → B name = A name

namespace Grammar

/-! ## Calls -/

/-- A call reads an end of the lexemes of its caller. -/
theorem Calls.rest_suffix {g : Grammar} {a b : Call} (hcall : Calls g a b) :
    b.cursor.rest <:+ a.cursor.rest := by
  cases hcall with
  | operand | right | argument => exact List.suffix_refl _
  | extend _ hrun => exact (parses_of_outcome (a := .operand _ _) hrun).rest_suffix
  | plus | minus | group | attach => exact List.tail_suffix _
  | again _ _ hrun =>
    exact (parses_of_outcome (a := .attach _ _ _ _ _) hrun).rest_suffix.trans (List.tail_suffix _)

/-! ## Outcomes under two scopes -/

/-- The second outcome is the first one, or the first one is the fault of a name among the lexemes
of which the second scope says something else. -/
def Outcome.Settled (A B : Scope) (lexemes : List Lexeme) (o o' : Outcome) : Prop :=
  o' = o ∨ ∃ name position c, o = .failed (.unknownIdentifier name position) c ∧
    (∃ l ∈ lexemes, l.token = .name name) ∧ A name ≠ B name

namespace Outcome.Settled

variable {A B : Scope} {lexemes : List Lexeme}

theorem refl (o : Outcome) : o.Settled A B lexemes o := .inl rfl

/-- Only a success goes on, so the continuations need to agree only behind a success. -/
theorem andThen {o o' : Outcome} {next next' : Expr → Nat → Cursor → Outcome}
    (ho : o.Settled A B lexemes o')
    (hnext : ∀ e h c, o = .parsed e h c → (next e h c).Settled A B lexemes (next' e h c)) :
    (o.andThen next).Settled A B lexemes (o'.andThen next') := by
  rcases ho with rfl | ⟨name, position, c, rfl, hname⟩
  · cases o' with
    | parsed e h c => exact hnext e h c rfl
    | failed fault c => exact refl _
  · exact .inr ⟨name, position, c, rfl, hname⟩

end Outcome.Settled

section TwoScopes

variable {A B : Scope} {limit : Option Nat} {lexemes : List Lexeme}

/-- The one routine that asks the scope. -/
theorem readOperand_name_settled (h : A.ExtendedOn B lexemes) {depth : Nat} {c : Cursor}
    {name : String} (hwithin : c.rest ⊆ lexemes) (htok : c.peek.token = .name name) :
    (readOperand ⟨A, limit⟩ depth c).Settled A B lexemes (readOperand ⟨B, limit⟩ depth c) := by
  have hne : c.rest ≠ [] := Cursor.rest_ne_nil (by simp [htok])
  have hmem : c.peek ∈ lexemes := hwithin (Cursor.peek_mem hne)
  rw [readOperand_eq ⟨A, limit⟩, readOperand_eq ⟨B, limit⟩]
  simp only [htok]
  -- a name that the first scope knows means the same in the second one
  cases hA : A name with
  | some binding =>
    rw [h _ hmem name htok (by simp [hA]), hA]
    exact .refl _
  | none =>
    cases hB : B name with
    | none => exact .refl _
    | some binding =>
      exact .inr ⟨name, _, _, rfl, ⟨_, hmem, htok⟩, by simp [hA, hB]⟩

/-- Scopes that agree on the names that both know compare by this relation, as long as only lexemes
of the sequence are read. -/
theorem comparison_settled (limit : Option Nat) (h : A.ExtendedOn B lexemes) :
    Comparison ⟨A, limit⟩ ⟨B, limit⟩ (fun a => a.cursor.rest ⊆ lexemes)
      (Outcome.Settled A B lexemes) where
  refl := .refl
  andThen := .andThen
  level {n o o'} c ho := by
    -- both scopes come with the same limit
    have hsame : admits ⟨B, limit⟩ n = admits ⟨A, limit⟩ n := rfl
    rw [hsame]
    split
    · rename_i hadm
      exact ho hadm
    · exact .refl _
  name := readOperand_name_settled h
  calls hcall hwithin := List.Subset.trans hcall.rest_suffix.subset hwithin

/-! ## Whole sequences -/

/-- A whole sequence has the same result under both scopes, or it failed at a name that they do not
agree on. -/
theorem parse_settled (limit : Option Nat) (h : A.ExtendedOn B lexemes) (source : String) :
    parse ⟨B, limit⟩ source lexemes = parse ⟨A, limit⟩ source lexemes ∨
      ∃ name position,
        parse ⟨A, limit⟩ source lexemes = .error (.unknownIdentifier name position) ∧
          (∃ l ∈ lexemes, l.token = .name name) ∧ A name ≠ B name := by
  have hsettled := (comparison_settled limit h).outcome
    (.expression 0 0 (Cursor.ofLexemes source lexemes)) (List.Subset.refl _)
  simp only [Call.outcome] at hsettled
  rw [parse_eq ⟨A, limit⟩, parse_eq ⟨B, limit⟩]
  rcases hsettled with heq | ⟨name, position, c, hA, hname⟩
  · rw [heq]
    exact .inl rfl
  · rw [hA]
    exact .inr ⟨name, position, rfl, hname⟩

end TwoScopes

end Grammar

end UnitCalc
