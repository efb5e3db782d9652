import Mathlib
import UnitCalc.Expr.Parse.Outcome

/-!
# The calls of a parse

The four routines of the grammar call each other. A `Call` is one of them with its arguments, and
`Calls g a b` says that the run of `a` calls `b`: an operand calls an expression for a sign or a
group, an extension calls an attachment and then itself, and so on. The relation is the call graph
of the routines and nothing else; in particular it says which intermediate results are handed on.

* `call_induction`: what holds of a call as soon as it holds of all the calls it makes, holds of
  every call. Statements about all runs rest on this and not on the recursion of the routines.
* `Active g a n`: at some moment of the run of `a`, `n` expressions are being read inside one
  another. It is read off the call graph and does not mention the depth that the routines keep.
-/

namespace UnitCalc

namespace Grammar

/-- A routine with its arguments. -/
inductive Call where
  | expression (depth minPower : Nat) (c : Cursor)
  | operand (depth : Nat) (c : Cursor)
  | extend (depth minPower : Nat) (expr : Expr) (height : Nat) (c : Cursor)
  | attach (depth : Nat) (link : Link) (left : Expr) (height : Nat) (c : Cursor)

namespace Call

/-- What the routine finds. -/
def outcome (g : Grammar) : Call → Outcome
  | expression depth minPower c => g.readExpression depth minPower c
  | operand depth c => g.readOperand depth c
  | extend depth minPower expr height c => g.readExtension depth minPower expr height c
  | attach depth link left height c => g.readAttachment depth link left height c

/-- How many expressions are being read around the call. -/
def depth : Call → Nat
  | expression depth .. | operand depth _ | extend depth .. | attach depth .. => depth

/-- How many expressions the call itself begins to read. -/
def levels : Call → Nat
  | expression .. => 1
  | operand .. | extend .. | attach .. => 0

/-- Calls are made in descending order of this number. -/
def size : Call → Nat
  | expression _ _ c => 4 * c.remaining + 1
  | operand _ c => 4 * c.remaining
  | extend _ _ _ _ c => 4 * c.remaining + 3
  | attach _ _ _ _ c => 4 * c.remaining + 2

end Call

/-! ## Successes

A success that goes through `andThen` consists of two. -/

namespace Outcome

/-- Two parts succeed only if the first one does, and then the second one behind it. -/
theorem andThen_eq_parsed {o : Outcome} {next : Expr → Nat → Cursor → Outcome} {e : Expr} {h : Nat}
    {d : Cursor} :
    o.andThen next = .parsed e h d ↔
      ∃ e' h' c, o = .parsed e' h' c ∧ next e' h' c = .parsed e h d := by
  cases o with
  | parsed e' h' c =>
    constructor
    · intro hnext
      exact ⟨e', h', c, rfl, hnext⟩
    · rintro ⟨_, _, _, heq, hnext⟩
      cases heq
      exact hnext
  | failed fault c => simp [andThen]

end Outcome

variable {g : Grammar}

theorem makeNode_eq_parsed {e e' : Expr} {h h' : Nat} {c d : Cursor} :
    g.makeNode e h c = .parsed e' h' d ↔ g.admits h = true ∧ e = e' ∧ h = h' ∧ c = d := by
  unfold makeNode
  split
  · rename_i hadm
    simp [hadm]
  · rename_i hadm
    simp [hadm]

/-- What is in parentheses is found if the closing one comes next. -/
theorem readClosing_eq_parsed {c d : Cursor} {o : Outcome} {e : Expr} {h : Nat} :
    readClosing c o = .parsed e h d ↔ c.peek.token = .closeParen ∧ o = .parsed e h d := by
  unfold readClosing
  split
  · rename_i hclose
    simp [hclose]
  · rename_i hclose
    simp [hclose]

/-- A success leaves less than the bound of the reply. -/
theorem Reply.remaining_lt {bound : Nat} {reply : Reply bound} {e : Expr} {h : Nat} {d : Cursor}
    (hrun : reply.outcome = .parsed e h d) : d.remaining < bound := by
  cases reply with
  | parsed e' h' c hlt =>
    rw [outcome_parsed] at hrun
    cases hrun
    exact hlt
  | failed fault c => exact absurd hrun (by simp)

/-! ## The call graph -/

/-- The run of the first call makes the second one. -/
inductive Calls (g : Grammar) : Call → Call → Prop where
  | operand {depth minPower : Nat} {c : Cursor} (hadm : g.admits (depth + 1) = true) :
      Calls g (.expression depth minPower c) (.operand (depth + 1) c)
  | extend {depth minPower : Nat} {c d : Cursor} {e : Expr} {h : Nat}
      (hadm : g.admits (depth + 1) = true)
      (hrun : g.readOperand (depth + 1) c = .parsed e h d) :
      Calls g (.expression depth minPower c) (.extend (depth + 1) minPower e h d)
  | plus {depth : Nat} {c : Cursor} (htok : c.peek.token = .operator .add) :
      Calls g (.operand depth c) (.expression depth signPower c.advance)
  | minus {depth : Nat} {c : Cursor} (htok : c.peek.token = .operator .subtract) :
      Calls g (.operand depth c) (.expression depth signPower c.advance)
  | group {depth : Nat} {c : Cursor} (htok : c.peek.token = .openParen) :
      Calls g (.operand depth c) (.expression depth 0 c.advance)
  | attach {depth minPower : Nat} {e : Expr} {h : Nat} {c : Cursor} {link : Link}
      (hlink : c.peek.token.link? = some link) (hpow : minPower < link.bindingPower) :
      Calls g (.extend depth minPower e h c) (.attach depth link e h c.advance)
  | again {depth minPower : Nat} {e e' : Expr} {h h' : Nat} {c d : Cursor} {link : Link}
      (hlink : c.peek.token.link? = some link) (hpow : minPower < link.bindingPower)
      (hrun : g.readAttachment depth link e h c.advance = .parsed e' h' d) :
      Calls g (.extend depth minPower e h c) (.extend depth minPower e' h' d)
  | right {depth : Nat} {op : Operator} {left : Expr} {h : Nat} {c : Cursor} :
      Calls g (.attach depth (.operator op) left h c) (.expression depth op.rightPower c)
  | argument {depth : Nat} {callee : Identifier} {f : UnaryFunction} {h : Nat} {c : Cursor}
      (hfun : callee.binding = .function f) :
      Calls g (.attach depth .argument (.identifier callee) h c) (.expression depth 0 c)

/-- Calls are made in descending order of their size. A lexeme counts four times, for a call of each
routine may stand at the same cursor. -/
theorem Calls.size_lt {a b : Call} (h : Calls g a b) : b.size < a.size := by
  have advance_lt {c : Cursor} {t : Token} (htok : c.peek.token = t) (ht : t ≠ .endOfInput) :
      c.advance.remaining < c.remaining :=
    c.remaining_advance_lt (by rw [htok]; exact ht)
  -- one case for each place in the routines where a call is made
  cases h with
  -- an expression and its operand stand at the same cursor; everything else moves on
  | operand => simp [Call.size]
  | @extend _ _ c d _ _ _ hrun =>
    have hlt : d.remaining < c.remaining := Reply.remaining_lt hrun
    simp only [Call.size]
    omega
  | plus htok | minus htok | group htok =>
    have := advance_lt htok (by simp)
    simp only [Call.size]
    omega
  | @attach _ _ _ _ c =>
    have := c.remaining_advance_le
    simp only [Call.size]
    omega
  | @again _ _ _ _ _ _ c d _ _ _ hrun =>
    have hlt : d.remaining < c.advance.remaining := Reply.remaining_lt hrun
    have := c.remaining_advance_le
    simp only [Call.size]
    omega
  | right => simp [Call.size]
  | argument => simp [Call.size]

/-- Induction along the call graph. -/
theorem call_induction (g : Grammar) {motive : Call → Prop}
    (step : ∀ a, (∀ b, Calls g a b → motive b) → motive a) (a : Call) : motive a := by
  -- on a bound for the size, which every call lowers
  have bounded : ∀ n, ∀ a : Call, a.size < n → motive a := by
    intro n
    induction n with
    | zero =>
      intro a ha
      exact absurd ha (Nat.not_lt_zero _)
    | succ n ih =>
      intro a ha
      refine step a fun b hb => ih b ?_
      have := hb.size_lt
      omega
  exact bounded _ a (Nat.lt_succ_self _)

/-! ## Expressions inside one another -/

/-- At some moment of the run, this many expressions are being read inside one another. -/
inductive Active (g : Grammar) : Call → Nat → Prop where
  | here (a : Call) : Active g a a.levels
  | within {a b : Call} {n : Nat} (hcall : Calls g a b) (hb : Active g b n) :
      Active g a (a.levels + n)

end Grammar

end UnitCalc
