import Mathlib
import UnitCalc.Proofs.Parse.Success

/-!
# Failed parses

`Fails g a fault d` is the course of a failed run: the call `a` finds the fault, with the cursor at
`d`. There is one constructor for each way to fail. What was read successfully before the fault is a
`Parses`, so an induction on `Fails` goes down the calls that were open when the fault was found,
and knows everything that had been read up to it.

* `fails_iff`: these are exactly the failures of the routines.
* `parse_eq_error`: how a whole sequence can fail. Something may also be left over.
-/

namespace UnitCalc

/-- What an operand may begin with: a number, a name, a parenthesis or a sign. -/
def Token.beginsOperand : Token → Bool
  | number _ | name _ | openParen | operator .add | operator .subtract => true
  | operator _ | closeParen | endOfInput => false

namespace Grammar

/-- The call fails: it finds this fault, with the cursor here. -/
inductive Fails (g : Grammar) : Call → Fault → Cursor → Prop where
  | depth {depth minPower : Nat} {c : Cursor} (hadm : g.admits (depth + 1) = false) :
      Fails g (.expression depth minPower c) .nestingTooDeep c
  | operand {depth minPower : Nat} {c d : Cursor} {fault : Fault}
      (hadm : g.admits (depth + 1) = true) (hop : Fails g (.operand (depth + 1) c) fault d) :
      Fails g (.expression depth minPower c) fault d
  | extend {depth minPower : Nat} {c d d' : Cursor} {e : Expr} {h : Nat} {fault : Fault}
      (hadm : g.admits (depth + 1) = true) (hop : Parses g (.operand (depth + 1) c) e h d)
      (hext : Fails g (.extend (depth + 1) minPower e h d) fault d') :
      Fails g (.expression depth minPower c) fault d'
  | unexpected {depth : Nat} {c : Cursor} (htok : c.peek.token.beginsOperand = false) :
      Fails g (.operand depth c) c.peek.unexpected c.advance
  | unknown {depth : Nat} {c : Cursor} {name : String} (htok : c.peek.token = .name name)
      (hscope : g.scope name = none) :
      Fails g (.operand depth c) (.unknownIdentifier name (some c.peek.position)) c.advance
  | plus {depth : Nat} {c d : Cursor} {fault : Fault} (htok : c.peek.token = .operator .add)
      (hexp : Fails g (.expression depth signPower c.advance) fault d) :
      Fails g (.operand depth c) fault d
  | minus {depth : Nat} {c d : Cursor} {fault : Fault} (htok : c.peek.token = .operator .subtract)
      (hexp : Fails g (.expression depth signPower c.advance) fault d) :
      Fails g (.operand depth c) fault d
  | minusHeight {depth : Nat} {c d : Cursor} {e : Expr} {h : Nat}
      (htok : c.peek.token = .operator .subtract)
      (hexp : Parses g (.expression depth signPower c.advance) e h d)
      (hadm : g.admits (h + 1) = false) : Fails g (.operand depth c) .nestingTooDeep d
  | group {depth : Nat} {c d : Cursor} {fault : Fault} (htok : c.peek.token = .openParen)
      (hexp : Fails g (.expression depth 0 c.advance) fault d) : Fails g (.operand depth c) fault d
  | groupEnd {depth : Nat} {c d : Cursor} {e : Expr} {h : Nat} (htok : c.peek.token = .openParen)
      (hexp : Parses g (.expression depth 0 c.advance) e h d)
      (hclose : d.peek.token ≠ .closeParen) :
      Fails g (.operand depth c) d.peek.unexpected d.advance
  | attach {depth minPower : Nat} {c d : Cursor} {e : Expr} {h : Nat} {link : Link} {fault : Fault}
      (hlink : c.peek.token.link? = some link) (hpow : minPower < link.bindingPower)
      (hatt : Fails g (.attach depth link e h c.advance) fault d) :
      Fails g (.extend depth minPower e h c) fault d
  | again {depth minPower : Nat} {c d d' : Cursor} {e e' : Expr} {h h' : Nat} {link : Link}
      {fault : Fault} (hlink : c.peek.token.link? = some link) (hpow : minPower < link.bindingPower)
      (hatt : Parses g (.attach depth link e h c.advance) e' h' d)
      (hext : Fails g (.extend depth minPower e' h' d) fault d') :
      Fails g (.extend depth minPower e h c) fault d'
  | right {depth : Nat} {op : Operator} {left : Expr} {h : Nat} {c d : Cursor} {fault : Fault}
      (hexp : Fails g (.expression depth op.rightPower c) fault d) :
      Fails g (.attach depth (.operator op) left h c) fault d
  | rightHeight {depth : Nat} {op : Operator} {left right : Expr} {h h' : Nat} {c d : Cursor}
      (hexp : Parses g (.expression depth op.rightPower c) right h' d)
      (hadm : g.admits (max h h' + 1) = false) :
      Fails g (.attach depth (.operator op) left h c) .nestingTooDeep d
  | notInvocable {depth : Nat} {left : Expr} {h : Nat} {c : Cursor}
      (hleft : ∀ callee, left ≠ .identifier callee) :
      Fails g (.attach depth .argument left h c) .notInvocable c
  | constant {depth : Nat} {callee : Identifier} {value : Float} {h : Nat} {c : Cursor}
      (hconst : callee.binding = .constant value) :
      Fails g (.attach depth .argument (.identifier callee) h c) (.notAFunction callee.name) c
  | argument {depth : Nat} {callee : Identifier} {f : UnaryFunction} {h : Nat} {c d : Cursor}
      {fault : Fault} (hfun : callee.binding = .function f)
      (hexp : Fails g (.expression depth 0 c) fault d) :
      Fails g (.attach depth .argument (.identifier callee) h c) fault d
  | argumentEnd {depth : Nat} {callee : Identifier} {f : UnaryFunction} {argument : Expr}
      {h h' : Nat} {c d : Cursor} (hfun : callee.binding = .function f)
      (hexp : Parses g (.expression depth 0 c) argument h' d)
      (hclose : d.peek.token ≠ .closeParen) :
      Fails g (.attach depth .argument (.identifier callee) h c) d.peek.unexpected d.advance
  | argumentHeight {depth : Nat} {callee : Identifier} {f : UnaryFunction} {argument : Expr}
      {h h' : Nat} {c d : Cursor} (hfun : callee.binding = .function f)
      (hexp : Parses g (.expression depth 0 c) argument h' d) (hclose : d.peek.token = .closeParen)
      (hadm : g.admits (h' + 1) = false) :
      Fails g (.attach depth .argument (.identifier callee) h c) .nestingTooDeep d.advance

/-! ## The building blocks

A failure that goes through `andThen` is one of the first part, or one behind its success. -/

variable {g : Grammar} {a : Call} {fault : Fault} {d : Cursor}

/-- Two parts fail in the first one, or in the second one behind its success. -/
theorem Outcome.andThen_eq_failed {o : Outcome} {next : Expr → Nat → Cursor → Outcome} :
    o.andThen next = .failed fault d ↔
      o = .failed fault d ∨ ∃ e h c, o = .parsed e h c ∧ next e h c = .failed fault d := by
  cases o with
  | parsed e h c => simp [andThen]
  | failed fault' c => simp [andThen]

theorem makeNode_eq_failed {e : Expr} {h : Nat} {c : Cursor} :
    g.makeNode e h c = .failed fault d ↔
      g.admits h = false ∧ fault = .nestingTooDeep ∧ c = d := by
  unfold makeNode
  split
  · rename_i hadm
    simp [hadm]
  · rename_i hadm
    simp [hadm, eq_comm]

/-- What is in parentheses fails as it is, or because the closing one does not come next. -/
theorem readClosing_eq_failed {c : Cursor} {o : Outcome} :
    readClosing c o = .failed fault d ↔
      (c.peek.token = .closeParen ∧ o = .failed fault d) ∨
        (c.peek.token ≠ .closeParen ∧ fault = c.peek.unexpected ∧ d = c.advance) := by
  unfold readClosing
  split
  · rename_i hclose
    simp [hclose]
  · rename_i hclose
    simp [hclose, eq_comm]

/-! ## They are the failures of the routines -/

/-- A run of this course is one of the routines. -/
theorem Fails.outcome_eq (hrun : Fails g a fault d) : a.outcome g = .failed fault d := by
  -- where something was read before the fault, that part is a success of the routines
  induction hrun with
  | depth hadm =>
    rw [Call.outcome, readExpression_eq, if_neg (by simp [hadm])]
  | operand hadm _ ih =>
    simp only [Call.outcome] at ih ⊢
    rw [readExpression_eq, if_pos hadm, ih]
    rfl
  | extend hadm hop _ ih =>
    have hparsed := hop.outcome_eq
    simp only [Call.outcome] at ih hparsed ⊢
    rw [readExpression_eq, if_pos hadm, hparsed]
    exact ih
  | @unexpected _ c htok =>
    rw [Call.outcome, readOperand_eq]
    -- the tokens that an operand begins with are the ones that are told apart
    split <;> rename_i heq
    · exact absurd htok (by simp [heq, Token.beginsOperand])
    · exact absurd htok (by simp [heq, Token.beginsOperand])
    · exact absurd htok (by simp [heq, Token.beginsOperand])
    · exact absurd htok (by simp [heq, Token.beginsOperand])
    · exact absurd htok (by simp [heq, Token.beginsOperand])
    · rfl
  | unknown htok hscope =>
    rw [Call.outcome, readOperand_eq, htok]
    simp only [hscope]
  | plus htok _ ih =>
    rw [Call.outcome, readOperand_eq, htok]
    exact ih
  | minus htok _ ih | group htok _ ih =>
    simp only [Call.outcome] at ih ⊢
    rw [readOperand_eq, htok]
    simp only [ih]
    rfl
  | minusHeight htok hexp hadm =>
    have hparsed := hexp.outcome_eq
    simp only [Call.outcome] at hparsed ⊢
    rw [readOperand_eq, htok]
    simp only [hparsed]
    exact makeNode_eq_failed.2 ⟨hadm, rfl, rfl⟩
  | groupEnd htok hexp hclose =>
    have hparsed := hexp.outcome_eq
    simp only [Call.outcome] at hparsed ⊢
    rw [readOperand_eq, htok]
    simp only [hparsed]
    exact readClosing_eq_failed.2 (.inr ⟨hclose, rfl, rfl⟩)
  | attach hlink hpow _ ih =>
    simp only [Call.outcome] at ih ⊢
    rw [readExtension_eq, hlink]
    simp only [if_neg (Nat.not_le_of_lt hpow), ih]
    rfl
  | again hlink hpow hatt _ ih =>
    have hparsed := hatt.outcome_eq
    simp only [Call.outcome] at ih hparsed ⊢
    rw [readExtension_eq, hlink]
    simp only [if_neg (Nat.not_le_of_lt hpow), hparsed]
    exact ih
  | right _ ih =>
    simp only [Call.outcome] at ih ⊢
    rw [readAttachment_operator, ih]
    rfl
  | rightHeight hexp hadm =>
    have hparsed := hexp.outcome_eq
    simp only [Call.outcome] at hparsed ⊢
    rw [readAttachment_operator, hparsed]
    exact makeNode_eq_failed.2 ⟨hadm, rfl, rfl⟩
  | @notInvocable _ left _ _ hleft =>
    rw [Call.outcome, readAttachment_argument]
    cases left with
    | identifier callee => exact absurd rfl (hleft callee)
    | _ => rfl
  | constant hconst =>
    rw [Call.outcome, readAttachment_argument]
    simp only [hconst]
  | argument hfun _ ih =>
    simp only [Call.outcome] at ih ⊢
    rw [readAttachment_argument]
    simp only [hfun, ih]
    rfl
  | argumentEnd hfun hexp hclose =>
    have hparsed := hexp.outcome_eq
    simp only [Call.outcome] at hparsed ⊢
    rw [readAttachment_argument]
    simp only [hfun, hparsed]
    exact readClosing_eq_failed.2 (.inr ⟨hclose, rfl, rfl⟩)
  | argumentHeight hfun hexp hclose hadm =>
    have hparsed := hexp.outcome_eq
    simp only [Call.outcome] at hparsed ⊢
    rw [readAttachment_argument]
    simp only [hfun, hparsed]
    exact readClosing_eq_failed.2 (.inl ⟨hclose, makeNode_eq_failed.2 ⟨hadm, rfl, rfl⟩⟩)

/-- Every failure takes one of the ways. The induction is along the call graph, as for the
successes. -/
theorem fails_of_outcome (a : Call) :
    ∀ {fault : Fault} {d : Cursor}, a.outcome g = .failed fault d → Fails g a fault d := by
  induction a using call_induction g with
  | step a ih =>
    intro fault d hrun
    cases a with
    | expression depth minPower c =>
      simp only [Call.outcome] at hrun
      rw [readExpression_eq] at hrun
      split at hrun
      · rename_i hadm
        -- the operand fails, or the extension behind it
        rcases Outcome.andThen_eq_failed.1 hrun with hop | ⟨e, h, d', hop, hext⟩
        · exact .operand hadm (ih _ (.operand hadm) hop)
        · exact .extend hadm (parses_of_outcome _ hop) (ih _ (.extend hadm hop) hext)
      · rename_i hadm
        cases hrun
        exact .depth (Bool.eq_false_iff.2 hadm)
    | operand depth c =>
      simp only [Call.outcome] at hrun
      rw [readOperand_eq] at hrun
      split at hrun
      · exact absurd hrun (by simp)
      · rename_i htok
        split at hrun
        · exact absurd hrun (by simp)
        · rename_i hscope
          cases hrun
          exact .unknown htok hscope
      · rename_i htok
        exact .plus htok (ih _ (.plus htok) hrun)
      · rename_i htok
        rcases Outcome.andThen_eq_failed.1 hrun with hexp | ⟨e, h, d', hexp, hnode⟩
        · exact .minus htok (ih _ (.minus htok) hexp)
        · obtain ⟨hadm, rfl, rfl⟩ := makeNode_eq_failed.1 hnode
          exact .minusHeight htok (parses_of_outcome _ hexp) hadm
      · rename_i htok
        rcases Outcome.andThen_eq_failed.1 hrun with hexp | ⟨e, h, d', hexp, hgroup⟩
        · exact .group htok (ih _ (.group htok) hexp)
        · rcases readClosing_eq_failed.1 hgroup with ⟨-, hnone⟩ | ⟨hclose, rfl, rfl⟩
          · exact absurd hnone (by simp)
          · exact .groupEnd htok (parses_of_outcome _ hexp) hclose
      · rename_i hnumber hname hplus hminus hopen
        cases hrun
        refine .unexpected ?_
        -- whatever is left begins no operand
        cases htok : c.peek.token with
        | number value => exact absurd htok (hnumber value)
        | name name => exact absurd htok (hname name)
        | openParen => exact absurd htok hopen
        | operator op =>
          cases op with
          | add => exact absurd htok hplus
          | subtract => exact absurd htok hminus
          | multiply | divide | power => rfl
        | closeParen | endOfInput => rfl
    | extend depth minPower left height c =>
      simp only [Call.outcome] at hrun
      rw [readExtension_eq] at hrun
      split at hrun
      · exact absurd hrun (by simp)
      · rename_i link hlink
        split at hrun
        · exact absurd hrun (by simp)
        · rename_i hpow
          have hlt : minPower < link.bindingPower := Nat.lt_of_not_le hpow
          rcases Outcome.andThen_eq_failed.1 hrun with hatt | ⟨e, h, d', hatt, hext⟩
          · exact .attach hlink hlt (ih _ (.attach hlink hlt) hatt)
          · exact .again hlink hlt (parses_of_outcome _ hatt) (ih _ (.again hlink hlt hatt) hext)
    | attach depth link left height c =>
      simp only [Call.outcome] at hrun
      cases link with
      | operator op =>
        rw [readAttachment_operator] at hrun
        rcases Outcome.andThen_eq_failed.1 hrun with hexp | ⟨e, h, d', hexp, hnode⟩
        · exact .right (ih _ .right hexp)
        · obtain ⟨hadm, rfl, rfl⟩ := makeNode_eq_failed.1 hnode
          exact .rightHeight (parses_of_outcome _ hexp) hadm
      | argument =>
        rw [readAttachment_argument] at hrun
        split at hrun
        · rename_i callee
          split at hrun
          · rename_i hconst
            cases hrun
            exact .constant hconst
          · rename_i f hfun
            rcases Outcome.andThen_eq_failed.1 hrun with hexp | ⟨e, h, d', hexp, hcall⟩
            · exact .argument hfun (ih _ (.argument hfun) hexp)
            · have hargument : Parses g (.expression depth 0 c) e h d' := parses_of_outcome _ hexp
              rcases readClosing_eq_failed.1 hcall with ⟨hclose, hnode⟩ | ⟨hclose, rfl, rfl⟩
              · obtain ⟨hadm, rfl, rfl⟩ := makeNode_eq_failed.1 hnode
                exact .argumentHeight hfun hargument hclose hadm
              · exact .argumentEnd hfun hargument hclose
        · rename_i hleft
          cases hrun
          exact .notInvocable hleft

/-- The courses of failed runs are the failures of the routines. -/
theorem fails_iff : Fails g a fault d ↔ a.outcome g = .failed fault d :=
  ⟨Fails.outcome_eq, fails_of_outcome a⟩

/-- Every call succeeds or fails. -/
theorem parses_or_fails (g : Grammar) (a : Call) :
    (∃ e h d, Parses g a e h d) ∨ ∃ fault d, Fails g a fault d := by
  cases houtcome : a.outcome g with
  | parsed e h d => exact .inl ⟨e, h, d, parses_iff.2 houtcome⟩
  | failed fault d => exact .inr ⟨fault, d, fails_iff.2 houtcome⟩

/-! ## Whole sequences -/

section Sequence

variable {source : String} {lexemes : List Lexeme}

theorem parse_of_fails
    (hrun : Fails g (.expression 0 0 (Cursor.ofLexemes source lexemes)) fault d) :
    g.parse source lexemes = .error fault := by
  have houtcome := hrun.outcome_eq
  simp only [Call.outcome] at houtcome
  rw [parse_eq, houtcome]

theorem parse_of_leftover {e : Expr} {h : Nat}
    (hrun : Parses g (.expression 0 0 (Cursor.ofLexemes source lexemes)) e h d)
    (hmore : d.rest ≠ []) : g.parse source lexemes = .error d.peek.unexpected := by
  have houtcome := hrun.outcome_eq
  simp only [Call.outcome] at houtcome
  rw [parse_eq, houtcome]
  simp [Cursor.isAtEnd, hmore]

/-- A whole sequence fails with the expression at its start, or because something is left over
behind that. -/
theorem parse_eq_error :
    g.parse source lexemes = .error fault ↔
      (∃ d, Fails g (.expression 0 0 (Cursor.ofLexemes source lexemes)) fault d) ∨
        ∃ e h d, Parses g (.expression 0 0 (Cursor.ofLexemes source lexemes)) e h d ∧
          d.rest ≠ [] ∧ fault = d.peek.unexpected := by
  constructor
  · intro hparse
    rcases parses_or_fails g (.expression 0 0 (Cursor.ofLexemes source lexemes)) with
      ⟨e, h, d, hrun⟩ | ⟨fault', d, hrun⟩
    -- with nothing left over the sequence would have been accepted
    · have hmore : d.rest ≠ [] := by
        intro hend
        rw [parse_eq_ok.2 ⟨h, d, hrun, hend⟩] at hparse
        exact absurd hparse (by simp)
      rw [parse_of_leftover hrun hmore] at hparse
      cases hparse
      exact .inr ⟨e, h, d, hrun, hmore, rfl⟩
    · rw [parse_of_fails hrun] at hparse
      cases hparse
      exact .inl ⟨d, hrun⟩
  · rintro (⟨d, hrun⟩ | ⟨e, h, d, hrun, hmore, rfl⟩)
    · exact parse_of_fails hrun
    · exact parse_of_leftover hrun hmore

end Sequence

end Grammar

end UnitCalc
