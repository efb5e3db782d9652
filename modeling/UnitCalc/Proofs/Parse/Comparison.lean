import Mathlib
import UnitCalc.Proofs.Parse.Calls

/-!
# Two grammars side by side

A grammar has a say in a run at two places only: where a level of nesting is let in, and where a
name is looked up. So the runs of two grammars are compared there, and nowhere else. A `Comparison`
is a relation between outcomes that holds at these two places and is handed on from one part of a
run to the next; then it holds of the outcomes of every call (`Comparison.outcome`).
-/

namespace UnitCalc

namespace Grammar

/-- A relation between the outcomes of two grammars, for calls of the kind `within`. -/
structure Comparison (g g' : Grammar) (within : Call → Prop) (R : Outcome → Outcome → Prop) :
    Prop where
  refl (o : Outcome) : R o o
  /-- Only a success goes on, so the continuations need to agree only behind a success. -/
  andThen {o o' : Outcome} {next next' : Expr → Nat → Cursor → Outcome} (ho : R o o')
    (hnext : ∀ e h c, o = .parsed e h c → R (next e h c) (next' e h c)) :
    R (o.andThen next) (o'.andThen next')
  /-- The outcomes are compared only if the first grammar lets the level in. -/
  level {n : Nat} {o o' : Outcome} (c : Cursor) (ho : g.admits n = true → R o o') :
    R (if g.admits n then o else .failed .nestingTooDeep c)
      (if g'.admits n then o' else .failed .nestingTooDeep c)
  name {depth : Nat} {c : Cursor} {name : String} (hwithin : within (.operand depth c))
    (htok : c.peek.token = .name name) : R (g.readOperand depth c) (g'.readOperand depth c)
  calls {a b : Call} (hcall : Calls g a b) (hwithin : within a) : within b

namespace Comparison

variable {g g' : Grammar} {within : Call → Prop} {R : Outcome → Outcome → Prop}

/-- Both grammars make a node, or at most one of them lets its level in. -/
theorem node (h : Comparison g g' within R) (e : Expr) (height : Nat) (c : Cursor) :
    R (g.makeNode e height c) (g'.makeNode e height c) :=
  h.level c fun _ => h.refl _

theorem closing (h : Comparison g g' within R) {c : Cursor} {o o' : Outcome} (ho : R o o') :
    R (readClosing c o) (readClosing c o') := by
  unfold readClosing
  split
  · exact ho
  · exact h.refl _

/-- The routines take the same steps with both grammars, one call of the first at a time. -/
theorem outcome (h : Comparison g g' within R) (a : Call) (hwithin : within a) :
    R (a.outcome g) (a.outcome g') := by
  -- the induction is on the calls of the first grammar; the second one follows it call by call
  induction a using call_induction g with
  | step a ih =>
    have hcall (b : Call) (hb : Calls g a b) : R (b.outcome g) (b.outcome g') :=
      ih b hb (h.calls hb hwithin)
    cases a with
    | expression depth minPower c =>
      show R (g.readExpression depth minPower c) (g'.readExpression depth minPower c)
      rw [readExpression_eq g, readExpression_eq g']
      exact h.level c fun hadm => h.andThen (hcall _ (.operand hadm)) fun e height d hrun =>
        hcall _ (.extend hadm hrun)
    | operand depth c =>
      show R (g.readOperand depth c) (g'.readOperand depth c)
      -- a name is where the grammars may differ; with any other lexeme both go the same way
      by_cases hname : ∃ name, c.peek.token = .name name
      · obtain ⟨name, htok⟩ := hname
        exact h.name hwithin htok
      rw [readOperand_eq g, readOperand_eq g']
      split
      · exact h.refl _
      · rename_i name htok
        exact absurd ⟨name, htok⟩ hname
      · rename_i htok
        exact hcall _ (.plus htok)
      · rename_i htok
        exact h.andThen (hcall _ (.minus htok)) fun e height d _ => h.node _ _ _
      · rename_i htok
        exact h.andThen (hcall _ (.group htok)) fun e height d _ => h.closing (h.refl _)
      · exact h.refl _
    | extend depth minPower left height c =>
      show R (g.readExtension depth minPower left height c)
        (g'.readExtension depth minPower left height c)
      rw [readExtension_eq g, readExtension_eq g']
      split
      · exact h.refl _
      · rename_i link hlink
        split
        · exact h.refl _
        · rename_i hpow
          have hlt : minPower < link.bindingPower := Nat.lt_of_not_le hpow
          exact h.andThen (hcall _ (.attach hlink hlt)) fun e height d hrun =>
            hcall _ (.again hlink hlt hrun)
    | attach depth link left height c =>
      show R (g.readAttachment depth link left height c)
        (g'.readAttachment depth link left height c)
      -- an operator takes a right side, a parenthesis an argument
      cases link with
      | operator op =>
        rw [readAttachment_operator g, readAttachment_operator g']
        exact h.andThen (hcall _ .right) fun e height d _ => h.node _ _ _
      | argument =>
        rw [readAttachment_argument g, readAttachment_argument g']
        split
        · split
          · exact h.refl _
          · rename_i f hfun
            exact h.andThen (hcall _ (.argument hfun)) fun e height d _ => h.closing (h.node _ _ _)
        · exact h.refl _

end Comparison

end Grammar

end UnitCalc
