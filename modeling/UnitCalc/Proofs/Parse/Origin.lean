import Mathlib
import UnitCalc.Proofs.Parse.Failure

/-!
# Where a fault is found

One call finds the fault of a failed run, and all calls around it only hand the fault on. `Finds`
says what a call has to see to find a fault; `Fails.exists_finds` follows the calls of a failed run
down to the one that does. What holds of every call that a run comes to then holds at the place of
the fault, so that facts about faults need no induction of their own.
-/

namespace UnitCalc

namespace Grammar

/-- The run of the one call comes to the other one. -/
def Reached (g : Grammar) : Call → Call → Prop := Relation.ReflTransGen (Calls g)

/-- The call has read an expression behind an opening parenthesis, up to the cursor, and the closing
one has to come next. -/
inductive ExpectsClosing (g : Grammar) : Call → Cursor → Prop where
  | group {depth : Nat} {c d : Cursor} {e : Expr} {h : Nat} (htok : c.peek.token = .openParen)
      (hexp : Parses g (.expression depth 0 c.advance) e h d) :
      ExpectsClosing g (.operand depth c) d
  | argument {depth : Nat} {callee : Identifier} {f : UnaryFunction} {argument : Expr}
      {h h' : Nat} {c d : Cursor} (hfun : callee.binding = .function f)
      (hexp : Parses g (.expression depth 0 c) argument h' d) :
      ExpectsClosing g (.attach depth .argument (.identifier callee) h c) d

/-- The call itself finds the fault, and none of the calls it makes. -/
inductive Finds (g : Grammar) : Call → Fault → Prop where
  | tooDeep {a : Call} {levels : Nat} (hadm : g.admits levels = false) :
      Finds g a .nestingTooDeep
  | unexpected {depth : Nat} {c : Cursor} (htok : c.peek.token.beginsOperand = false) :
      Finds g (.operand depth c) c.peek.unexpected
  | unknown {depth : Nat} {c : Cursor} {name : String} (htok : c.peek.token = .name name)
      (hscope : g.scope name = none) :
      Finds g (.operand depth c) (.unknownIdentifier name (some c.peek.position))
  | unclosed {a : Call} {d : Cursor} (hexpects : ExpectsClosing g a d)
      (hclose : d.peek.token ≠ .closeParen) : Finds g a d.peek.unexpected
  | notInvocable {depth : Nat} {left : Expr} {h : Nat} {c : Cursor}
      (hleft : ∀ callee, left ≠ .identifier callee) :
      Finds g (.attach depth .argument left h c) .notInvocable
  | constant {depth : Nat} {callee : Identifier} {value : Float} {h : Nat} {c : Cursor}
      (hconst : callee.binding = .constant value) :
      Finds g (.attach depth .argument (.identifier callee) h c) (.notAFunction callee.name)

variable {g : Grammar} {a b : Call} {fault : Fault} {d : Cursor}

/-- A fault that a called call comes to is one that its caller comes to. -/
theorem Calls.exists_finds (hcall : Calls g a b)
    (h : ∃ c, Reached g b c ∧ Finds g c fault) : ∃ c, Reached g a c ∧ Finds g c fault := by
  obtain ⟨c, hreached, hfinds⟩ := h
  exact ⟨c, .head hcall hreached, hfinds⟩

/-- Some call that a failed run comes to finds the fault. -/
theorem Fails.exists_finds (hrun : Fails g a fault d) :
    ∃ b, Reached g a b ∧ Finds g b fault := by
  -- the first cases find the fault themselves, the others go down to the call that failed
  induction hrun with
  | depth hadm | minusHeight _ _ hadm | rightHeight _ hadm | argumentHeight _ _ _ hadm =>
    exact ⟨_, .refl, .tooDeep hadm⟩
  | unexpected htok => exact ⟨_, .refl, .unexpected htok⟩
  | unknown htok hscope => exact ⟨_, .refl, .unknown htok hscope⟩
  | groupEnd htok hexp hclose => exact ⟨_, .refl, .unclosed (.group htok hexp) hclose⟩
  | argumentEnd hfun hexp hclose => exact ⟨_, .refl, .unclosed (.argument hfun hexp) hclose⟩
  | notInvocable hleft => exact ⟨_, .refl, .notInvocable hleft⟩
  | constant hconst => exact ⟨_, .refl, .constant hconst⟩
  | operand hadm _ ih => exact Calls.exists_finds (.operand hadm) ih
  | extend hadm hop _ ih => exact Calls.exists_finds (.extend hadm hop.outcome_eq) ih
  | plus htok _ ih => exact Calls.exists_finds (.plus htok) ih
  | minus htok _ ih => exact Calls.exists_finds (.minus htok) ih
  | group htok _ ih => exact Calls.exists_finds (.group htok) ih
  | attach hlink hpow _ ih => exact Calls.exists_finds (.attach hlink hpow) ih
  | again hlink hpow hatt _ ih => exact Calls.exists_finds (.again hlink hpow hatt.outcome_eq) ih
  | right _ ih => exact Calls.exists_finds .right ih
  | argument hfun _ ih => exact Calls.exists_finds (.argument hfun) ih

/-- What every call hands on to the calls it makes holds of all calls that a run comes to. -/
theorem Reached.induct {motive : Call → Prop} (hreached : Reached g a b) (ha : motive a)
    (hcalls : ∀ b c, Calls g b c → motive b → motive c) : motive b := by
  induction hreached with
  | refl => exact ha
  | tail _ hcall ih => exact hcalls _ _ hcall ih

end Grammar

end UnitCalc
