import Mathlib
import UnitCalc.Proofs.Parse.Calls

/-!
# Successful parses

`Parses g a e h d` is the course of a successful run: the call `a` finds the expression `e` of
height `h` and stops at the cursor `d`. There is one constructor for each way to succeed, with all
that was checked on it, so an induction on `Parses` goes over the run call by call.

* `parses_iff`: these are exactly the successes of the routines.
* `Parses.height_eq`, `Parses.left_height_le`: the height that is handed on is the height of the
  tree, and attaching something never makes a tree lower.
* `Parses.power_le`: an expression ends in front of something that binds no more tightly than its
  minimum.
-/

namespace UnitCalc

namespace Grammar

/-- How tightly the next lexeme binds to the expression in front of it. -/
def nextPower (c : Cursor) : Nat :=
  match c.peek.token.link? with
  | some link => link.bindingPower
  | none => 0

theorem nextPower_of_link {c : Cursor} {link : Link} (h : c.peek.token.link? = some link) :
    nextPower c = link.bindingPower := by
  rw [nextPower, h]

theorem nextPower_of_no_link {c : Cursor} (h : c.peek.token.link? = none) : nextPower c = 0 := by
  rw [nextPower, h]

theorem nextPower_of_closeParen {c : Cursor} (h : c.peek.token = .closeParen) :
    nextPower c = 0 := by
  apply nextPower_of_no_link
  rw [h]
  rfl

theorem nextPower_of_openParen {c : Cursor} (h : c.peek.token = .openParen) : nextPower c = 50 := by
  have hlink : c.peek.token.link? = some .argument := by
    rw [h]
    rfl
  exact nextPower_of_link hlink

theorem nextPower_of_operator {c : Cursor} {op : Operator} (h : c.peek.token = .operator op) :
    nextPower c = op.bindingPower := by
  have hlink : c.peek.token.link? = some (.operator op) := by
    rw [h]
    rfl
  exact nextPower_of_link hlink

/-- A link is an operator, or the parenthesis in front of an argument. -/
theorem token_of_link {t : Token} {link : Link} (h : t.link? = some link) :
    t = (match link with
      | .operator op => .operator op
      | .argument => .openParen) := by
  cases t with
  | operator op => cases h; rfl
  | openParen => cases h; rfl
  | number | name | closeParen | endOfInput => exact absurd h (by simp [Token.link?])

/-- The call succeeds: it finds this tree of this height, and leaves this cursor. -/
inductive Parses (g : Grammar) : Call → Expr → Nat → Cursor → Prop where
  | expression {depth minPower : Nat} {c d d' : Cursor} {e e' : Expr} {h h' : Nat}
      (hadm : g.admits (depth + 1) = true)
      (hop : Parses g (.operand (depth + 1) c) e h d)
      (hext : Parses g (.extend (depth + 1) minPower e h d) e' h' d') :
      Parses g (.expression depth minPower c) e' h' d'
  | number {depth : Nat} {c : Cursor} {value : Quantity} (htok : c.peek.token = .number value) :
      Parses g (.operand depth c) (.literal value) 1 c.advance
  | name {depth : Nat} {c : Cursor} {name : String} {binding : Binding}
      (htok : c.peek.token = .name name) (hscope : g.scope name = some binding) :
      Parses g (.operand depth c) (.identifier ⟨name, binding⟩) 1 c.advance
  | plus {depth : Nat} {c d : Cursor} {e : Expr} {h : Nat}
      (htok : c.peek.token = .operator .add)
      (hexp : Parses g (.expression depth signPower c.advance) e h d) :
      Parses g (.operand depth c) e h d
  | minus {depth : Nat} {c d : Cursor} {e : Expr} {h : Nat}
      (htok : c.peek.token = .operator .subtract)
      (hexp : Parses g (.expression depth signPower c.advance) e h d)
      (hadm : g.admits (h + 1) = true) :
      Parses g (.operand depth c) (.negate e) (h + 1) d
  | group {depth : Nat} {c d : Cursor} {e : Expr} {h : Nat}
      (htok : c.peek.token = .openParen)
      (hexp : Parses g (.expression depth 0 c.advance) e h d)
      (hclose : d.peek.token = .closeParen) :
      Parses g (.operand depth c) e h d.advance
  | stop {depth minPower : Nat} {c : Cursor} {e : Expr} {h : Nat} (hpow : nextPower c ≤ minPower) :
      Parses g (.extend depth minPower e h c) e h c
  | link {depth minPower : Nat} {c d d' : Cursor} {e e' e'' : Expr} {h h' h'' : Nat} {link : Link}
      (hlink : c.peek.token.link? = some link) (hpow : minPower < link.bindingPower)
      (hatt : Parses g (.attach depth link e h c.advance) e' h' d)
      (hext : Parses g (.extend depth minPower e' h' d) e'' h'' d') :
      Parses g (.extend depth minPower e h c) e'' h'' d'
  | operator {depth : Nat} {op : Operator} {left right : Expr} {h h' : Nat} {c d : Cursor}
      (hexp : Parses g (.expression depth op.rightPower c) right h' d)
      (hadm : g.admits (max h h' + 1) = true) :
      Parses g (.attach depth (.operator op) left h c) (.binary op left right) (max h h' + 1) d
  | argument {depth : Nat} {callee : Identifier} {f : UnaryFunction} {argument : Expr} {h h' : Nat}
      {c d : Cursor} (hfun : callee.binding = .function f)
      (hexp : Parses g (.expression depth 0 c) argument h' d)
      (hclose : d.peek.token = .closeParen) (hadm : g.admits (h' + 1) = true) :
      Parses g (.attach depth .argument (.identifier callee) h c) (.call callee argument) (h' + 1)
        d.advance

/-! ## They are the successes of the routines -/

variable {g : Grammar} {a : Call} {e : Expr} {h : Nat} {d : Cursor}

/-- A run of this course is one of the routines. -/
theorem Parses.outcome_eq (hrun : Parses g a e h d) : a.outcome g = .parsed e h d := by
  -- one case for each constructor: the routine is opened, and it takes the branch of the
  -- constructor
  induction hrun with
  | expression hadm _ _ ihop ihext =>
    simp only [Call.outcome] at ihop ihext ⊢
    rw [readExpression_eq, if_pos hadm, ihop]
    exact ihext
  | number htok => rw [Call.outcome, readOperand_eq, htok]
  | name htok hscope =>
    rw [Call.outcome, readOperand_eq, htok]
    simp only [hscope]
  | plus htok _ ih =>
    rw [Call.outcome, readOperand_eq, htok]
    exact ih
  | minus htok _ hadm ih =>
    simp only [Call.outcome] at ih ⊢
    rw [readOperand_eq, htok]
    simp only [ih]
    exact makeNode_eq_parsed.2 ⟨hadm, rfl, rfl, rfl⟩
  | group htok _ hclose ih =>
    simp only [Call.outcome] at ih ⊢
    rw [readOperand_eq, htok]
    simp only [ih]
    exact readClosing_eq_parsed.2 ⟨hclose, rfl⟩
  | @stop _ _ c _ _ hpow =>
    rw [Call.outcome, readExtension_eq]
    cases hlink : c.peek.token.link? with
    | none => rfl
    | some link =>
      rw [nextPower_of_link hlink] at hpow
      simp only [if_pos hpow]
  | link hlink hpow _ _ ihatt ihext =>
    simp only [Call.outcome] at ihatt ihext ⊢
    rw [readExtension_eq, hlink]
    simp only [if_neg (Nat.not_le_of_lt hpow), ihatt]
    exact ihext
  | operator _ hadm ih =>
    simp only [Call.outcome] at ih ⊢
    rw [readAttachment_operator, ih]
    exact makeNode_eq_parsed.2 ⟨hadm, rfl, rfl, rfl⟩
  | argument hfun _ hclose hadm ih =>
    simp only [Call.outcome] at ih ⊢
    rw [readAttachment_argument]
    simp only [hfun, ih]
    exact readClosing_eq_parsed.2 ⟨hclose, makeNode_eq_parsed.2 ⟨hadm, rfl, rfl, rfl⟩⟩

/-- Every success takes one of the ways. The induction is along the call graph: a success of a call
is put together from successes of the calls it makes. -/
theorem parses_of_outcome (a : Call) :
    ∀ {e : Expr} {h : Nat} {d : Cursor}, a.outcome g = .parsed e h d → Parses g a e h d := by
  induction a using call_induction g with
  | step a ih =>
    intro e h d hrun
    -- the routine is opened the other way round: every branch that can succeed is a constructor
    cases a with
    | expression depth minPower c =>
      simp only [Call.outcome] at hrun
      rw [readExpression_eq] at hrun
      split at hrun
      · rename_i hadm
        obtain ⟨e', h', d', hop, hext⟩ := Outcome.andThen_eq_parsed.1 hrun
        exact .expression hadm (ih _ (.operand hadm) hop) (ih _ (.extend hadm hop) hext)
      · exact absurd hrun (by simp)
    | operand depth c =>
      simp only [Call.outcome] at hrun
      rw [readOperand_eq] at hrun
      -- one case for each token that an operand may begin with
      split at hrun
      · rename_i htok
        cases hrun
        exact .number htok
      · rename_i htok
        split at hrun
        · rename_i hscope
          cases hrun
          exact .name htok hscope
        · exact absurd hrun (by simp)
      · rename_i htok
        exact .plus htok (ih _ (.plus htok) hrun)
      · rename_i htok
        obtain ⟨e', h', d', hexp, hnode⟩ := Outcome.andThen_eq_parsed.1 hrun
        obtain ⟨hadm, rfl, rfl, rfl⟩ := makeNode_eq_parsed.1 hnode
        exact .minus htok (ih _ (.minus htok) hexp) hadm
      · rename_i htok
        obtain ⟨e', h', d', hexp, hgroup⟩ := Outcome.andThen_eq_parsed.1 hrun
        obtain ⟨hclose, heq⟩ := readClosing_eq_parsed.1 hgroup
        cases heq
        exact .group htok (ih _ (.group htok) hexp) hclose
      · exact absurd hrun (by simp)
    | extend depth minPower left height c =>
      simp only [Call.outcome] at hrun
      rw [readExtension_eq] at hrun
      split at hrun
      · -- nothing goes on here, which counts as binding with power zero
        rename_i hlink
        cases hrun
        refine .stop ?_
        rw [nextPower_of_no_link hlink]
        exact Nat.zero_le _
      · rename_i link hlink
        split at hrun
        · rename_i hpow
          cases hrun
          refine .stop ?_
          rw [nextPower_of_link hlink]
          exact hpow
        · rename_i hpow
          have hlt : minPower < link.bindingPower := Nat.lt_of_not_le hpow
          obtain ⟨e', h', d', hatt, hext⟩ := Outcome.andThen_eq_parsed.1 hrun
          exact .link hlink hlt (ih _ (.attach hlink hlt) hatt) (ih _ (.again hlink hlt hatt) hext)
    | attach depth link left height c =>
      simp only [Call.outcome] at hrun
      cases link with
      | operator op =>
        rw [readAttachment_operator] at hrun
        obtain ⟨e', h', d', hexp, hnode⟩ := Outcome.andThen_eq_parsed.1 hrun
        obtain ⟨hadm, rfl, rfl, rfl⟩ := makeNode_eq_parsed.1 hnode
        exact .operator (ih _ .right hexp) hadm
      | argument =>
        rw [readAttachment_argument] at hrun
        -- only the name of a function gets as far as its argument
        split at hrun
        · rename_i callee
          split at hrun
          · exact absurd hrun (by simp)
          · rename_i f hfun
            obtain ⟨e', h', d', hexp, hcall⟩ := Outcome.andThen_eq_parsed.1 hrun
            obtain ⟨hclose, hnode⟩ := readClosing_eq_parsed.1 hcall
            obtain ⟨hadm, rfl, rfl, rfl⟩ := makeNode_eq_parsed.1 hnode
            exact .argument hfun (ih _ (.argument hfun) hexp) hclose hadm
        · exact absurd hrun (by simp)

/-- The courses of successful runs are the successes of the routines. -/
theorem parses_iff : Parses g a e h d ↔ a.outcome g = .parsed e h d :=
  ⟨Parses.outcome_eq, parses_of_outcome a⟩

/-- A whole sequence is accepted if the expression at its start leaves nothing over. -/
theorem parse_eq_ok {source : String} {lexemes : List Lexeme} :
    g.parse source lexemes = .ok e ↔
      ∃ h d, Parses g (.expression 0 0 (Cursor.ofLexemes source lexemes)) e h d ∧ d.rest = [] := by
  rw [parse_eq]
  constructor
  · intro hparse
    split at hparse
    · rename_i e' h d hrun
      split at hparse
      · rename_i hend
        cases hparse
        exact ⟨h, d, parses_iff.2 hrun, List.isEmpty_iff.1 hend⟩
      · exact absurd hparse (by simp)
    · exact absurd hparse (by simp)
  · rintro ⟨h, d, hrun, hend⟩
    have houtcome := hrun.outcome_eq
    simp only [Call.outcome] at houtcome
    rw [houtcome]
    simp [Cursor.isAtEnd, hend]

/-! ## What every success keeps

The height that a routine is given belongs to the tree that it is given; then the height that it
returns belongs to the tree that it returns. -/

namespace Call

/-- The height the call is given is that of the tree it is given. -/
def Sized : Call → Prop
  | expression .. | operand .. => True
  | extend _ _ e h _ | attach _ _ e h _ => h = e.height

/-- The tree the call goes on with. -/
def left? : Call → Option Expr
  | expression .. | operand .. => none
  | extend _ _ e _ _ | attach _ _ e _ _ => some e

/-- What binds no more tightly than this ends the reading. -/
def minPower? : Call → Option Nat
  | expression _ minPower _ | extend _ minPower _ _ _ => some minPower
  | operand .. | attach .. => none

end Call

/-- The height that is handed on is that of the tree, for every call that is given a tree with its
height. -/
theorem Parses.height_eq (hrun : Parses g a e h d) (hsized : a.Sized) : h = e.height := by
  induction hrun with
  | expression _ _ _ ihop ihext => exact ihext (ihop trivial)
  | number | name => rfl
  | plus _ _ ih => exact ih trivial
  | minus _ _ _ ih => rw [Expr.height, ih trivial]
  | group _ _ _ ih => exact ih trivial
  | stop => exact hsized
  -- the tree that comes out of the attachment goes into the rest of the extension
  | link _ _ _ _ ihatt ihext => exact ihext (ihatt hsized)
  | operator _ _ ih =>
    have hleft : _ = _ := hsized
    rw [Expr.height, ih trivial, hleft]
  | argument _ _ _ _ ih => rw [Expr.height, ih trivial]

/-- What goes on with a tree makes one that is at least as high. -/
theorem Parses.left_height_le (hrun : Parses g a e h d) {left : Expr}
    (hleft : a.left? = some left) :
    left.height ≤ e.height := by
  -- the tree that is gone on with changes from one attachment to the next
  induction hrun generalizing left with
  | expression | number | name | plus | minus | group => exact absurd hleft (by simp [Call.left?])
  | stop =>
    cases hleft
    exact Nat.le_refl _
  | link _ _ _ _ ihatt ihext => exact Nat.le_trans (ihatt hleft) (ihext rfl)
  | operator =>
    cases hleft
    rw [Expr.height]
    omega
  | argument =>
    cases hleft
    rw [Expr.height, Expr.height]
    omega

/-- An expression ends where nothing binds more tightly than its minimum. -/
theorem Parses.power_le (hrun : Parses g a e h d) {minPower : Nat}
    (hmin : a.minPower? = some minPower) : nextPower d ≤ minPower := by
  induction hrun with
  | expression _ _ _ _ ihext => exact ihext hmin
  | stop hpow =>
    cases hmin
    exact hpow
  | link _ _ _ _ _ ihext => exact ihext hmin
  | _ => exact absurd hmin (by simp [Call.minPower?])

end Grammar

end UnitCalc
