import Mathlib
import UnitCalc.Proofs.Parse.Machine

/-!
# The machine makes progress

A lexeme is read without asking whether there is one, and the cursor moves on even past the last.
That happens at most once: what is found there begins no operand and binds to nothing, so the
machine gives up on it and reads no more. Between two readings there is only a little to be done,
which `Machine.work` counts.

* `step_effect`: what a step does to the cursor and to the work.
* `Steps.sound`: what holds of all states of a run, and how long a run can be.
* `steps_invariant`: both, and what a call of the routine for expressions leaves behind.
-/

namespace UnitCalc

/-! ## What is left to be done -/

@[simp] def Frame.work : Frame → Nat
  | extend _ => 2
  | negate | group | right .. | argument _ => 1

namespace Control

/-- What a frame has still to do when the call on top of it comes back. -/
@[simp] def work : Control → Nat
  | expression _ | extend .. => 1
  | operand _ | attach .. => 3
  | done .. | failed _ => 0

/-- A fault has been found or is about to be found, and no more lexemes will be read. -/
def GivesUp : Control → Prop
  | operand first => first.token.beginsOperand = false
  | failed _ => True
  | expression _ | extend .. | attach .. | done .. => False

/-- What is attached to an expression begins with an operator or an opening parenthesis. -/
def Linked : Control → Prop
  | attach _ _ link => link.token.isOperator = true ∨ link.token = .openParen
  | expression _ | operand _ | extend .. | done .. | failed _ => True

end Control

namespace Machine

/-- How much can be done before another lexeme is read. -/
def work (x : Machine) : Nat := x.control.work + (x.stack.map Frame.work).sum

@[simp] theorem work_mk (control : Control) (stack : List Frame) (c : Cursor) (depth : Nat) :
    work ⟨control, stack, c, depth⟩ = control.work + (stack.map Frame.work).sum := rfl

/-- A step either works off what it has, or it reads a lexeme. It reads none once it has given up,
and it gives up when there is none. -/
inductive Effect (x y : Machine) : Prop where
  | works (hcursor : y.cursor = x.cursor) (hwork : y.work < x.work)
      (hgives : x.control.GivesUp → y.control.GivesUp) (hlinked : y.control.Linked)
  | reads (hcursor : y.cursor = x.cursor.advance) (hwork : y.work < x.work + 5)
      (hgives : ¬ x.control.GivesUp)
      (hend : x.cursor.peek.token = .endOfInput → y.control.GivesUp) (hlinked : y.control.Linked)

variable {g : Grammar} {n : Nat} {x y : Machine} {control : Control} {stack : List Frame}
  {c : Cursor} {depth depth' : Nat}

/-- Only operators and opening parentheses bind to what is in front of them. -/
theorem linked_of_bindingPower {l : Lexeme} {minPower : Nat}
    (hpow : minPower < l.token.bindingPower) :
    l.token.isOperator = true ∨ l.token = .openParen := by
  cases htok : l.token with
  | operator op => exact .inl rfl
  | openParen => exact .inr rfl
  | number | name | closeParen | endOfInput =>
    rw [htok] at hpow
    exact absurd hpow (Nat.not_lt_zero _)

section Parts

variable {e : Expr} {h : Nat}

/-- A node has been made or it has not, and neither is work. -/
@[simp] theorem node_work : (x.node g e h).work = (x.stack.map Frame.work).sum := by
  unfold node
  split <;> exact Nat.zero_add _

theorem node_cursor : (x.node g e h).cursor = x.cursor := rfl

theorem node_linked : (x.node g e h).control.Linked := by
  unfold node
  split <;> trivial

end Parts

namespace Effect

/-- A step that reads nothing and does not begin with a lexeme that is unexpected. -/
theorem goesOn (hcursor : y.cursor = x.cursor) (hwork : y.work < x.work)
    (hgoes : ¬ x.control.GivesUp) (hlinked : y.control.Linked) : Effect x y :=
  .works hcursor hwork (fun hgives => absurd hgives hgoes) hlinked

theorem fails {fault : Fault} (hwork : 0 < control.work) :
    Effect ⟨control, stack, c, depth⟩ ⟨.failed fault, stack, c, depth'⟩ :=
  .works rfl (by simpa [Control.work] using hwork) (fun _ => trivial) trivial

end Effect

/-- What a lexeme means at the beginning of an operand is worked out without reading another one. -/
theorem operand_effect (first : Lexeme) :
    Effect ⟨.operand first, stack, c, depth⟩
      (operand g ⟨.operand first, stack, c, depth⟩ first) := by
  cases hbegins : first.token.beginsOperand with
  | false =>
    rw [operand_unexpected hbegins]
    exact .fails (by simp)
  | true =>
    have hgoes : ¬ (Control.operand first).GivesUp := by simp [Control.GivesUp, hbegins]
    unfold operand
    split
    · exact .goesOn rfl (by simp) hgoes trivial
    · split
      · exact .goesOn rfl (by simp) hgoes trivial
      · exact .fails (by simp)
    · exact .goesOn rfl (by simp) hgoes trivial
    -- a minus sign and a parenthesis leave a frame on the stack, which is work too
    · exact .goesOn rfl (by simp +arith) hgoes trivial
    · exact .goesOn rfl (by simp +arith) hgoes trivial
    · exact .fails (by simp)

/-- What a lexeme means behind an expression is worked out without reading another one. -/
theorem attach_effect (left : Expr) (h : Nat) (l : Lexeme) :
    Effect ⟨.attach left h l, stack, c, depth⟩
      (attach ⟨.attach left h l, stack, c, depth⟩ left h l) := by
  unfold attach
  split
  · exact .goesOn rfl (by simp +arith) id trivial
  · split
    · split
      · exact .fails (by simp)
      · exact .goesOn rfl (by simp +arith) id trivial
    · exact .fails (by simp)
  · exact .fails (by simp)

/-- A frame that is gone back to reads the closing parenthesis that it is waiting for, and nothing
else. -/
theorem resume_effect (frame : Frame) (e : Expr) (h : Nat) :
    Effect ⟨.done e h, frame :: stack, c, depth⟩
      (resume g ⟨.done e h, stack, c, depth⟩ frame e h) := by
  cases frame with
  | extend minPower => exact .goesOn rfl (by simp +arith [resume]) id trivial
  | negate =>
    exact .goesOn node_cursor (by simp +arith [resume]) id node_linked
  | right op left height =>
    exact .goesOn node_cursor (by simp +arith [resume]) id node_linked
  | group =>
    -- the lexeme is read whether it closes or not, so the two cases differ in giving up only
    by_cases hclose : c.peek.token = .closeParen
    · rw [resume_group hclose]
      have hclosed : c.peek.token ≠ .endOfInput := by simp [hclose]
      exact .reads rfl (by simp +arith) id (fun hend => absurd hend hclosed) trivial
    · rw [resume_group_open hclose]
      exact .reads rfl (by simp +arith) id (fun _ => trivial) trivial
  | argument callee =>
    by_cases hclose : c.peek.token = .closeParen
    · rw [resume_argument hclose]
      have hclosed : c.peek.token ≠ .endOfInput := by simp [hclose]
      exact .reads node_cursor (by simp +arith) id (fun hend => absurd hend hclosed) node_linked
    · rw [resume_argument_open hclose]
      exact .reads rfl (by simp +arith) id (fun _ => trivial) trivial

/-- What a step does to the cursor and to the work. -/
theorem step_effect (hstep : x.step g = some y) : Effect x y := by
  obtain ⟨control, stack, c, depth⟩ := x
  cases control with
  | expression minPower =>
    simp only [step] at hstep
    split at hstep
    · cases hstep
      -- the end of the input begins no operand
      refine .reads rfl (by simp +arith) id (fun hend => ?_) trivial
      change c.peek.token.beginsOperand = false
      rw [hend]
      rfl
    · cases hstep
      exact .fails (by simp)
  | operand first =>
    cases hstep
    exact operand_effect first
  | extend minPower e h =>
    simp only [step] at hstep
    split at hstep
    · rename_i hpow
      cases hstep
      -- the end of the input binds to nothing, so what is read here is a lexeme
      have hlinked := linked_of_bindingPower hpow
      refine .reads rfl (by simp +arith) id (fun hend => ?_) hlinked
      rw [hend] at hpow
      exact absurd hpow (Nat.not_lt_zero _)
    · cases hstep
      exact .goesOn rfl (by simp) id trivial
  | attach left h l =>
    cases hstep
    exact attach_effect left h l
  | done e h =>
    cases stack with
    | nil => cases hstep
    | cons frame stack =>
      cases hstep
      exact resume_effect frame e h
  | failed fault => cases hstep

/-! ## All states of a run -/

/-- The cursor stands among the lexemes or right behind the last one, or it has moved past the end
once, and then the machine has given up. -/
structure Sound (lexemes : List Lexeme) (x : Machine) : Prop where
  rest_eq : x.cursor.rest = lexemes.drop x.cursor.taken
  taken_le : x.cursor.taken ≤ lexemes.length ∨
    x.cursor.taken = lexemes.length + 1 ∧ x.control.GivesUp
  linked : x.control.Linked

/-- How many steps there can still be. -/
def budget (lexemes : List Lexeme) (x : Machine) : Nat :=
  5 * (lexemes.length + 1 - x.cursor.taken) + x.work

variable {lexemes : List Lexeme}

theorem start_sound (source : String) (lexemes : List Lexeme) :
    Sound lexemes (start source lexemes) :=
  ⟨rfl, .inl (Nat.zero_le _), trivial⟩

/-- The cursor never moves further than one position past the last lexeme. -/
theorem Sound.taken_le_succ (hx : Sound lexemes x) : x.cursor.taken ≤ lexemes.length + 1 := by
  rcases hx.taken_le with hle | ⟨heq, -⟩
  · exact Nat.le_succ_of_le hle
  · exact Nat.le_of_eq heq

/-- Behind the last lexeme stands the end of the input. -/
theorem Sound.peek_eq (hx : Sound lexemes x) (htaken : x.cursor.taken = lexemes.length) :
    x.cursor.peek.token = .endOfInput := by
  have hnil : x.cursor.rest = [] := by rw [hx.rest_eq, htaken, List.drop_length]
  rw [Cursor.peek, hnil]
  rfl

namespace Effect

/-- Every step leads from a sound state to a sound one. -/
theorem sound (heffect : Effect x y) (hx : Sound lexemes x) : Sound lexemes y := by
  cases heffect with
  -- the cursor stays, and a machine that has given up does not go on
  | works hcursor _ hgives hlinked =>
    refine ⟨?_, ?_, hlinked⟩
    · rw [hcursor]
      exact hx.rest_eq
    · rw [hcursor]
      exact hx.taken_le.imp_right fun hpast => ⟨hpast.1, hgives hpast.2⟩
  | reads hcursor _ hgives hend hlinked =>
    have hle : x.cursor.taken ≤ lexemes.length :=
      hx.taken_le.resolve_right fun hpast => hgives hpast.2
    refine ⟨?_, ?_, hlinked⟩
    · rw [hcursor, Cursor.advance, hx.rest_eq, List.tail_drop]
    · rw [hcursor]
      -- moving past the end takes the end of the input for a lexeme
      rcases Nat.lt_or_eq_of_le hle with hlt | heq
      · exact .inl hlt
      · exact .inr ⟨congrArg Nat.succ heq, hend (hx.peek_eq heq)⟩

/-- Every step from a sound state leaves fewer steps to come. -/
theorem budget_lt (heffect : Effect x y) (hx : Sound lexemes x) :
    y.budget lexemes < x.budget lexemes := by
  have hle := (heffect.sound hx).taken_le_succ
  unfold budget
  cases heffect with
  | works hcursor hwork =>
    rw [hcursor]
    omega
  -- a lexeme that is read pays for the work it brings
  | reads hcursor hwork =>
    rw [hcursor] at hle ⊢
    simp only [Cursor.advance] at hle ⊢
    omega

end Effect

/-- All states of a run are sound, and the run has no more steps than its budget at the start. -/
theorem Steps.sound (hsteps : Steps g n x y) (hx : Sound lexemes x) :
    Sound lexemes y ∧ n + y.budget lexemes ≤ x.budget lexemes := by
  induction hsteps with
  | refl _ => exact ⟨hx, by omega⟩
  | step hstep _ ih =>
    -- the first step, and then the rest of the run from a state that is sound again
    have heffect := step_effect hstep
    obtain ⟨hsound, hle⟩ := ih (heffect.sound hx)
    have hlt := heffect.budget_lt hx
    exact ⟨hsound, by omega⟩

end Machine

namespace Grammar

open Machine

variable {g : Grammar} {lexemes : List Lexeme} {x : Machine} {minPower depth : Nat} {e : Expr}
  {h : Nat} {d : Cursor}

/-- A call that comes back has read something, and nothing that is not there. -/
theorem Returns.taken (hreturns : Returns g minPower x.cursor x.depth e h d depth)
    (hx : Sound lexemes x) : x.cursor.taken < d.taken ∧ d.taken ≤ lexemes.length := by
  have hremaining : d.remaining < x.cursor.remaining :=
    Reply.remaining_lt (returns_iff.1 hreturns).1
  have hbefore : x.cursor.remaining = lexemes.length - x.cursor.taken := by
    rw [Cursor.remaining, hx.rest_eq, List.length_drop]
  -- something is left, so the call begins in a sound state
  have hcall : Sound lexemes ⟨.expression minPower, [], x.cursor, x.depth⟩ :=
    ⟨hx.rest_eq, .inl (by dsimp only; omega), trivial⟩
  obtain ⟨n, hsteps⟩ := hreturns
  have hdone := (hsteps.sound hcall).1
  have hafter : d.remaining = lexemes.length - d.taken := by
    rw [Cursor.remaining, hdone.rest_eq, List.length_drop]
  have hle : d.taken ≤ lexemes.length := hdone.taken_le.resolve_right fun hpast => hpast.2
  omega

/-- The reading of a sequence of lexemes, state by state. It ends with the answer of the routines.
In every state up to there, the cursor is at most one position past the last lexeme, and what is
being attached begins with an operator or an opening parenthesis. A call of the routine for
expressions in that state, if it comes back, has read at least one lexeme and none that is not
there; the counter is as it was, the height is that of the expression, and what stands next binds
no more tightly than the minimum. -/
theorem steps_invariant (g : Grammar) (source : String) (lexemes : List Lexeme) :
    (∀ r, g.parse source lexemes = r ↔
      ∃ x, Leads g (Machine.start source lexemes) x ∧ x.answer? = some r) ∧
    ∀ n x, Steps g n (Machine.start source lexemes) x →
      n ≤ 5 * (lexemes.length + 1) + 1 ∧
      x.cursor.taken ≤ lexemes.length + 1 ∧
      (∀ left h l, x.control = .attach left h l →
        l.token.isOperator = true ∨ l.token = .openParen) ∧
      ∀ minPower e h d depth, Returns g minPower x.cursor x.depth e h d depth →
        x.cursor.taken < d.taken ∧ d.taken ≤ lexemes.length ∧ depth = x.depth ∧ h = e.height ∧
          d.peek.token.bindingPower ≤ minPower := by
  refine ⟨fun r => parse_eq_iff, fun n x hsteps => ?_⟩
  obtain ⟨hsound, hbudget⟩ := hsteps.sound (start_sound source lexemes)
  refine ⟨?_, hsound.taken_le_succ, ?_, ?_⟩
  · have hstart : (Machine.start source lexemes).budget lexemes = 5 * (lexemes.length + 1) + 1 :=
      rfl
    omega
  · intro left h l hcontrol
    have hlinked := hsound.linked
    rw [hcontrol] at hlinked
    exact hlinked
  · intro minPower e h d depth hreturns
    obtain ⟨hrun, hdepth⟩ := returns_iff.1 hreturns
    have hparses : Parses g (.expression x.depth minPower x.cursor) e h d := parses_iff.2 hrun
    -- the call is a run of the routines, so what holds of those holds here
    have hpower := hparses.power_le rfl
    rw [nextPower_eq_bindingPower] at hpower
    obtain ⟨hmoved, hinside⟩ := hreturns.taken hsound
    exact ⟨hmoved, hinside, hdepth, hparses.height_eq trivial, hpower⟩

/-- The call for the operand of the sign in `+x`. -/
theorem steps_invariant_signed :
    ∃ x d, Steps ⟨fun _ => some (.constant 0), some nestingLimit⟩ 2
        (Machine.start "+x"
          [⟨.operator .add, "+", 0, 1, ⟨1, 1⟩⟩, ⟨.name "x", "x", 1, 2, ⟨1, 2⟩⟩]) x ∧
      Returns ⟨fun _ => some (.constant 0), some nestingLimit⟩ signPower x.cursor x.depth
        (.identifier ⟨"x", .constant 0⟩) 1 d 1 ∧
      x.cursor.taken < d.taken ∧ d.taken ≤ 2 ∧ 1 = x.depth ∧
      1 = Expr.height (.identifier ⟨"x", .constant 0⟩) ∧
      d.peek.token.bindingPower ≤ signPower := by
  have hsteps : Steps ⟨fun _ => some (.constant 0), some nestingLimit⟩ 2
      (Machine.start "+x" [⟨.operator .add, "+", 0, 1, ⟨1, 1⟩⟩, ⟨.name "x", "x", 1, 2, ⟨1, 2⟩⟩])
      ⟨.expression signPower, [.extend 0], ⟨"+x", [⟨.name "x", "x", 1, 2, ⟨1, 2⟩⟩], 1⟩, 1⟩ :=
    .step rfl (.step rfl (.refl _))
  have hreturns : Returns ⟨fun _ => some (.constant 0), some nestingLimit⟩ signPower
      ⟨"+x", [⟨.name "x", "x", 1, 2, ⟨1, 2⟩⟩], 1⟩ 1 (.identifier ⟨"x", .constant 0⟩) 1
      ⟨"+x", [], 2⟩ 1 :=
    .step rfl (.step rfl (.step rfl (.step rfl (.refl _))))
  exact ⟨_, _, hsteps, hreturns,
    ((steps_invariant _ _ _).2 _ _ hsteps).2.2.2 _ _ _ _ _ hreturns⟩

end Grammar

end UnitCalc
