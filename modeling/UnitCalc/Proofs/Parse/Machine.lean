import Mathlib
import UnitCalc.Proofs.Parse.Failure

/-!
# Reading one step at a time

The routines of the grammar hand the depth and the cursor on as arguments, and a call that waits for
another one is not seen. The machine does the same reading with everything in the open: what is to
be done next, the calls that wait, the cursor and a single counter of the expressions that are being
read. The counter is raised where an expression begins and lowered where it ends, and whatever token
comes behind an expression and binds tightly enough is taken first and looked at then.

* `Machine.step`: one step. The machine stops when it has an expression and nothing waits for it,
  and when it has found a fault.
* `Parses.leads`, `Fails.leads`: whatever waits on the stack, the machine finds what the routine
  finds, and after a success the counter stands where it stood before.
* `returns_iff`, `parse_eq_iff`: so it does for a single expression and for a whole sequence.
-/

namespace UnitCalc

/-- How tightly a token binds to the expression in front of it. -/
def Token.bindingPower : Token → Nat
  | operator op => op.bindingPower
  | openParen => 50
  | _ => 0

/-- A call that waits for the expression another one is reading. -/
inductive Frame where
  /-- Goes on with what follows the expression. -/
  | extend (minPower : Nat)
  | negate
  | group
  | right (op : Operator) (left : Expr) (height : Nat)
  | argument (callee : Identifier)

/-- What is to be done next. -/
inductive Control where
  | expression (minPower : Nat)
  /-- The lexeme the operand begins with has been read. -/
  | operand (first : Lexeme)
  | extend (minPower : Nat) (expr : Expr) (height : Nat)
  /-- The lexeme behind the expression on the left has been read. -/
  | attach (left : Expr) (height : Nat) (link : Lexeme)
  | done (expr : Expr) (height : Nat)
  | failed (fault : Fault)

/-- The whole state of a reading. -/
structure Machine where
  control : Control
  /-- The calls that wait, the innermost first. -/
  stack : List Frame
  cursor : Cursor
  depth : Nat

namespace Machine

/-- The machine in front of a sequence of lexemes. -/
def start (source : String) (lexemes : List Lexeme) : Machine :=
  ⟨.expression 0, [], Cursor.ofLexemes source lexemes, 0⟩

/-! ## One step -/

/-- Makes a node of the given height, unless it is too high. -/
def node (g : Grammar) (x : Machine) (expr : Expr) (height : Nat) : Machine :=
  { x with control := if g.admits height then .done expr height else .failed .nestingTooDeep }

/-- Reads a closing parenthesis and goes on behind it. -/
def close (x : Machine) (next : Machine → Machine) : Machine :=
  let behind := { x with cursor := x.cursor.advance }
  if x.cursor.peek.token = .closeParen then next behind
  else { behind with control := .failed x.cursor.peek.unexpected }

/-- Begins the operand whose first lexeme has been read. -/
def operand (g : Grammar) (x : Machine) (first : Lexeme) : Machine :=
  match first.token with
  | .number value => { x with control := .done (.literal value) 1 }
  | .name name =>
    match g.scope name with
    | some binding => { x with control := .done (.identifier ⟨name, binding⟩) 1 }
    | none => { x with control := .failed (.unknownIdentifier name (some first.position)) }
  | .operator .add => { x with control := .expression signPower }
  | .operator .subtract => { x with control := .expression signPower, stack := .negate :: x.stack }
  | .openParen => { x with control := .expression 0, stack := .group :: x.stack }
  | _ => { x with control := .failed first.unexpected }

/-- Begins what the lexeme attaches to the expression on the left. A lexeme that attaches nothing is
unexpected. -/
def attach (x : Machine) (left : Expr) (height : Nat) (link : Lexeme) : Machine :=
  match link.token with
  | .operator op =>
    { x with control := .expression op.rightPower, stack := .right op left height :: x.stack }
  | .openParen =>
    match left with
    | .identifier callee =>
      match callee.binding with
      | .constant _ => { x with control := .failed (.notAFunction callee.name) }
      | .function _ => { x with control := .expression 0, stack := .argument callee :: x.stack }
    | _ => { x with control := .failed .notInvocable }
  | _ => { x with control := .failed link.unexpected }

/-- Goes on with the call that has waited for the expression. -/
def resume (g : Grammar) (x : Machine) (frame : Frame) (expr : Expr) (height : Nat) : Machine :=
  match frame with
  | .extend minPower => { x with control := .extend minPower expr height }
  | .negate => x.node g (.negate expr) (height + 1)
  | .group => x.close fun behind => { behind with control := .done expr height }
  | .right op left leftHeight => x.node g (.binary op left expr) (max leftHeight height + 1)
  | .argument callee => x.close fun behind => behind.node g (.call callee expr) (height + 1)

/-- Does what the control says, in one step. -/
def step (g : Grammar) (x : Machine) : Option Machine :=
  match x.control with
  | .expression minPower =>
    -- the counter is raised even if it turns out to be too high
    if g.admits (x.depth + 1) then
      some ⟨.operand x.cursor.peek, .extend minPower :: x.stack, x.cursor.advance, x.depth + 1⟩
    else some { x with control := .failed .nestingTooDeep, depth := x.depth + 1 }
  | .operand first => some (x.operand g first)
  | .extend minPower expr height =>
    if minPower < x.cursor.peek.token.bindingPower then
      some ⟨.attach expr height x.cursor.peek, .extend minPower :: x.stack, x.cursor.advance,
        x.depth⟩
    else some { x with control := .done expr height, depth := x.depth - 1 }
  | .attach left height link => some (x.attach left height link)
  | .done expr height =>
    match x.stack with
    | [] => none
    | frame :: stack => some ({ x with stack }.resume g frame expr height)
  | .failed _ => none

/-- What the machine has found when it has stopped. Nothing may be left over. -/
def answer? (x : Machine) : Option (Except Fault Expr) :=
  match x.control, x.stack with
  | .done expr _, [] =>
    some (if x.cursor.isAtEnd then .ok expr else .error x.cursor.peek.unexpected)
  | .failed fault, _ => some (.error fault)
  | _, _ => none

/-! ## Runs -/

/-- The machine comes from one state to another in `n` steps. -/
inductive Steps (g : Grammar) : Nat → Machine → Machine → Prop where
  | refl (x : Machine) : Steps g 0 x x
  | step {n : Nat} {x y z : Machine} (hstep : x.step g = some y) (hrest : Steps g n y z) :
      Steps g (n + 1) x z

/-- The machine comes from one state to another. -/
def Leads (g : Grammar) (x y : Machine) : Prop := ∃ n, Steps g n x y

variable {g : Grammar} {n m : Nat} {x y z : Machine}

theorem Steps.trans (hxy : Steps g n x y) (hyz : Steps g m y z) : Steps g (n + m) x z := by
  induction hxy with
  | refl _ =>
    rw [Nat.zero_add]
    exact hyz
  | step hstep _ ih =>
    rw [Nat.succ_add]
    exact .step hstep (ih hyz)

/-- A machine stops in one state only. -/
theorem Steps.unique (hxy : Steps g n x y) (hxz : Steps g m x z) (hy : y.step g = none)
    (hz : z.step g = none) : y = z := by
  induction hxy generalizing m with
  -- the shorter run has stopped, so the longer one has no step to go on with
  | refl _ =>
    cases hxz with
    | refl _ => rfl
    | step hstep _ => exact absurd (hy.symm.trans hstep) (by simp)
  | step hstep _ ih =>
    cases hxz with
    | refl _ => exact absurd (hz.symm.trans hstep) (by simp)
    | step hstep' hrest =>
      cases hstep.symm.trans hstep'
      exact ih hrest hy

namespace Leads

theorem refl (x : Machine) : Leads g x x := ⟨0, .refl x⟩

theorem step (hstep : x.step g = some y) (hrest : Leads g y z) : Leads g x z := by
  obtain ⟨n, hrest⟩ := hrest
  exact ⟨n + 1, .step hstep hrest⟩

theorem trans (hxy : Leads g x y) (hyz : Leads g y z) : Leads g x z := by
  obtain ⟨n, hxy⟩ := hxy
  obtain ⟨m, hyz⟩ := hyz
  exact ⟨n + m, hxy.trans hyz⟩

theorem unique (hxy : Leads g x y) (hxz : Leads g x z) (hy : y.step g = none)
    (hz : z.step g = none) : y = z := by
  obtain ⟨n, hxy⟩ := hxy
  obtain ⟨m, hxz⟩ := hxz
  exact hxy.unique hxz hy hz

end Leads

/-- The machine comes to a fault with the cursor at `d`. The calls that wait are not resumed, and
the counter is not lowered any more. -/
def LeadsToFault (g : Grammar) (x : Machine) (fault : Fault) (d : Cursor) : Prop :=
  ∃ stack depth, Leads g x ⟨.failed fault, stack, d, depth⟩

namespace LeadsToFault

variable {fault : Fault} {d : Cursor}

theorem now {stack : List Frame} {depth : Nat}
    (hstep : x.step g = some ⟨.failed fault, stack, d, depth⟩) : LeadsToFault g x fault d :=
  ⟨stack, depth, .step hstep (.refl _)⟩

theorem behind (hxy : Leads g x y) (hrest : LeadsToFault g y fault d) :
    LeadsToFault g x fault d := by
  obtain ⟨stack, depth, hrest⟩ := hrest
  exact ⟨stack, depth, hxy.trans hrest⟩

theorem step (hstep : x.step g = some y) (hrest : LeadsToFault g y fault d) :
    LeadsToFault g x fault d :=
  behind (.step hstep (.refl y)) hrest

end LeadsToFault

/-! ## The ways on -/

section Ways

variable {e left : Expr} {h : Nat} {l : Lexeme} {control : Control}
  {stack : List Frame} {c : Cursor} {depth : Nat}

theorem node_of_admits (hadm : g.admits h = true) :
    x.node g e h = { x with control := .done e h } := by
  rw [node, if_pos hadm]

theorem node_of_not_admits (hadm : g.admits h = false) :
    x.node g e h = { x with control := .failed .nestingTooDeep } := by
  rw [node, if_neg (Bool.eq_false_iff.1 hadm)]

theorem resume_group (hclose : c.peek.token = .closeParen) :
    resume g ⟨control, stack, c, depth⟩ .group e h = ⟨.done e h, stack, c.advance, depth⟩ :=
  if_pos hclose

theorem resume_group_open (hclose : c.peek.token ≠ .closeParen) :
    resume g ⟨control, stack, c, depth⟩ .group e h =
      ⟨.failed c.peek.unexpected, stack, c.advance, depth⟩ :=
  if_neg hclose

theorem resume_argument {callee : Identifier} (hclose : c.peek.token = .closeParen) :
    resume g ⟨control, stack, c, depth⟩ (.argument callee) e h =
      node g ⟨control, stack, c.advance, depth⟩ (.call callee e) (h + 1) :=
  if_pos hclose

theorem resume_argument_open {callee : Identifier} (hclose : c.peek.token ≠ .closeParen) :
    resume g ⟨control, stack, c, depth⟩ (.argument callee) e h =
      ⟨.failed c.peek.unexpected, stack, c.advance, depth⟩ :=
  if_neg hclose

theorem operand_number {value : Quantity} (htok : l.token = .number value) :
    x.operand g l = { x with control := .done (.literal value) 1 } := by
  rw [operand, htok]

theorem operand_name {name : String} {binding : Binding} (htok : l.token = .name name)
    (hscope : g.scope name = some binding) :
    x.operand g l = { x with control := .done (.identifier ⟨name, binding⟩) 1 } := by
  simp only [operand, htok, hscope]

theorem operand_unknown {name : String} (htok : l.token = .name name)
    (hscope : g.scope name = none) :
    x.operand g l = { x with control := .failed (.unknownIdentifier name (some l.position)) } := by
  simp only [operand, htok, hscope]

theorem operand_plus (htok : l.token = .operator .add) :
    x.operand g l = { x with control := .expression signPower } := by
  rw [operand, htok]

theorem operand_minus (htok : l.token = .operator .subtract) :
    x.operand g l = { x with control := .expression signPower, stack := .negate :: x.stack } := by
  rw [operand, htok]

theorem operand_group (htok : l.token = .openParen) :
    x.operand g l = { x with control := .expression 0, stack := .group :: x.stack } := by
  rw [operand, htok]

theorem operand_unexpected (htok : l.token.beginsOperand = false) :
    x.operand g l = { x with control := .failed l.unexpected } := by
  unfold operand
  cases heq : l.token with
  | number | name | openParen => exact absurd htok (by simp [heq, Token.beginsOperand])
  | operator op =>
    cases op with
    | add | subtract => exact absurd htok (by simp [heq, Token.beginsOperand])
    | multiply | divide | power => rfl
  | closeParen | endOfInput => rfl

theorem attach_operator {op : Operator} (hlink : l.token.link? = some (.operator op)) :
    x.attach left h l =
      { x with control := .expression op.rightPower, stack := .right op left h :: x.stack } := by
  unfold attach
  rw [Grammar.token_of_link hlink]

theorem attach_function {callee : Identifier} {f : UnaryFunction}
    (hlink : l.token.link? = some .argument) (hfun : callee.binding = .function f) :
    x.attach (.identifier callee) h l =
      { x with control := .expression 0, stack := .argument callee :: x.stack } := by
  simp only [attach, Grammar.token_of_link hlink, hfun]

theorem attach_constant {callee : Identifier} {value : Float}
    (hlink : l.token.link? = some .argument) (hconst : callee.binding = .constant value) :
    x.attach (.identifier callee) h l =
      { x with control := .failed (.notAFunction callee.name) } := by
  simp only [attach, Grammar.token_of_link hlink, hconst]

theorem attach_notInvocable (hlink : l.token.link? = some .argument)
    (hleft : ∀ callee, left ≠ .identifier callee) :
    x.attach left h l = { x with control := .failed .notInvocable } := by
  unfold attach
  rw [Grammar.token_of_link hlink]
  cases left with
  | identifier callee => exact absurd rfl (hleft callee)
  | _ => rfl

end Ways

end Machine

/-! ## The machine and the routines -/

namespace Grammar

open Machine

variable {g : Grammar} {a : Call} {e : Expr} {h : Nat} {fault : Fault} {d : Cursor}

/-- How tightly the next lexeme binds is the same for the machine and for the routines. -/
theorem nextPower_eq_bindingPower (c : Cursor) : nextPower c = c.peek.token.bindingPower := by
  unfold nextPower
  cases c.peek.token <;> rfl

theorem lt_bindingPower {t : Token} {link : Link} {minPower : Nat} (hlink : t.link? = some link)
    (hpow : minPower < link.bindingPower) : minPower < t.bindingPower := by
  rw [token_of_link hlink]
  cases link <;> exact hpow

/-- The machine that is about to do the work of a call while the frames of the stack wait for it.
What begins with a lexeme that has been read begins behind it. -/
inductive Begins : Call → List Frame → Machine → Prop where
  | expression {depth minPower : Nat} {c : Cursor} {stack : List Frame} :
      Begins (.expression depth minPower c) stack ⟨.expression minPower, stack, c, depth⟩
  | operand {depth : Nat} {c : Cursor} {stack : List Frame} :
      Begins (.operand depth c) stack ⟨.operand c.peek, stack, c.advance, depth⟩
  | extend {depth minPower : Nat} {e : Expr} {h : Nat} {c : Cursor} {stack : List Frame} :
      Begins (.extend depth minPower e h c) stack ⟨.extend minPower e h, stack, c, depth⟩
  | attach {depth : Nat} {link : Link} {left : Expr} {h : Nat} {c : Cursor} {l : Lexeme}
      {stack : List Frame} (hlink : l.token.link? = some link) :
      Begins (.attach depth link left h c) stack ⟨.attach left h l, stack, c, depth⟩

/-- The counter behind a call that has succeeded. It is lowered where an expression ends, and that
is where nothing more is attached to it. -/
def Call.depthAfter : Call → Nat
  | expression depth .. | operand depth _ | attach depth .. => depth
  | extend depth .. => depth - 1

/-- Where a routine succeeds, the machine comes to the same expression and the same cursor, with the
stack as it was and the counter as the call leaves it. -/
theorem Parses.leads (hrun : Parses g a e h d) {stack : List Frame} {x : Machine}
    (hbegins : Begins a stack x) : Leads g x ⟨.done e h, stack, d, a.depthAfter⟩ := by
  -- the stack changes from call to call: a call that is made puts its frame there, and finds it
  -- again
  induction hrun generalizing stack x with
  | expression hadm _ _ ihop ihext =>
    cases hbegins
    exact .step (if_pos hadm) ((ihop .operand).trans (.step rfl (ihext .extend)))
  | number htok =>
    cases hbegins
    exact .step (congrArg some (operand_number htok)) (.refl _)
  | name htok hscope =>
    cases hbegins
    exact .step (congrArg some (operand_name htok hscope)) (.refl _)
  | plus htok _ ih =>
    cases hbegins
    exact .step (congrArg some (operand_plus htok)) (ih .expression)
  | minus htok _ hadm ih =>
    cases hbegins
    refine .step (congrArg some (operand_minus htok)) ((ih .expression).trans ?_)
    exact .step (congrArg some (node_of_admits hadm)) (.refl _)
  | group htok _ hclose ih =>
    cases hbegins
    refine .step (congrArg some (operand_group htok)) ((ih .expression).trans ?_)
    exact .step (congrArg some (resume_group hclose)) (.refl _)
  -- the one place where the counter is lowered
  | stop hpow =>
    cases hbegins
    rw [nextPower_eq_bindingPower] at hpow
    exact .step (if_neg (Nat.not_lt_of_le hpow)) (.refl _)
  -- the lexeme is taken first, and it is looked at in the state behind it
  | link hlink hpow _ _ ihatt ihext =>
    cases hbegins
    refine .step (if_pos (lt_bindingPower hlink hpow)) ((ihatt (.attach hlink)).trans ?_)
    exact .step rfl (ihext .extend)
  | operator _ hadm ih =>
    obtain - | - | - | hlink := hbegins
    refine .step (congrArg some (attach_operator hlink)) ((ih .expression).trans ?_)
    exact .step (congrArg some (node_of_admits hadm)) (.refl _)
  | argument hfun _ hclose hadm ih =>
    obtain - | - | - | hlink := hbegins
    refine .step (congrArg some (attach_function hlink hfun)) ((ih .expression).trans ?_)
    exact .step (congrArg some ((resume_argument hclose).trans (node_of_admits hadm))) (.refl _)

/-- Where a routine fails, the machine comes to the same fault at the same cursor. -/
theorem Fails.leads (hrun : Fails g a fault d) {stack : List Frame} {x : Machine}
    (hbegins : Begins a stack x) : LeadsToFault g x fault d := by
  -- what was read before the fault is a run of its own; the fault is found behind it
  induction hrun generalizing stack x with
  | depth hadm =>
    cases hbegins
    exact .now (if_neg (Bool.eq_false_iff.1 hadm))
  | operand hadm _ ih =>
    cases hbegins
    exact .step (if_pos hadm) (ih .operand)
  | extend hadm hop _ ih =>
    cases hbegins
    exact .step (if_pos hadm) (.behind (hop.leads .operand) (.step rfl (ih .extend)))
  | unexpected htok =>
    cases hbegins
    exact .now (congrArg some (operand_unexpected htok))
  | unknown htok hscope =>
    cases hbegins
    exact .now (congrArg some (operand_unknown htok hscope))
  | plus htok _ ih =>
    cases hbegins
    exact .step (congrArg some (operand_plus htok)) (ih .expression)
  | minus htok _ ih =>
    cases hbegins
    exact .step (congrArg some (operand_minus htok)) (ih .expression)
  | minusHeight htok hexp hadm =>
    cases hbegins
    refine .step (congrArg some (operand_minus htok)) (.behind (hexp.leads .expression) ?_)
    exact .now (congrArg some (node_of_not_admits hadm))
  | group htok _ ih =>
    cases hbegins
    exact .step (congrArg some (operand_group htok)) (ih .expression)
  | groupEnd htok hexp hclose =>
    cases hbegins
    refine .step (congrArg some (operand_group htok)) (.behind (hexp.leads .expression) ?_)
    exact .now (congrArg some (resume_group_open hclose))
  | attach hlink hpow _ ih =>
    cases hbegins
    exact .step (if_pos (lt_bindingPower hlink hpow)) (ih (.attach hlink))
  | again hlink hpow hatt _ ih =>
    cases hbegins
    refine .step (if_pos (lt_bindingPower hlink hpow)) (.behind (hatt.leads (.attach hlink)) ?_)
    exact .step rfl (ih .extend)
  | right _ ih =>
    obtain - | - | - | hlink := hbegins
    exact .step (congrArg some (attach_operator hlink)) (ih .expression)
  | rightHeight hexp hadm =>
    obtain - | - | - | hlink := hbegins
    refine .step (congrArg some (attach_operator hlink)) (.behind (hexp.leads .expression) ?_)
    exact .now (congrArg some (node_of_not_admits hadm))
  | notInvocable hleft =>
    obtain - | - | - | hlink := hbegins
    exact .now (congrArg some (attach_notInvocable hlink hleft))
  | constant hconst =>
    obtain - | - | - | hlink := hbegins
    exact .now (congrArg some (attach_constant hlink hconst))
  | argument hfun _ ih =>
    obtain - | - | - | hlink := hbegins
    exact .step (congrArg some (attach_function hlink hfun)) (ih .expression)
  | argumentEnd hfun hexp hclose =>
    obtain - | - | - | hlink := hbegins
    refine .step (congrArg some (attach_function hlink hfun)) (.behind (hexp.leads .expression) ?_)
    exact .now (congrArg some (resume_argument_open hclose))
  | argumentHeight hfun hexp hclose hadm =>
    obtain - | - | - | hlink := hbegins
    refine .step (congrArg some (attach_function hlink hfun)) (.behind (hexp.leads .expression) ?_)
    exact .now (congrArg some ((resume_argument hclose).trans (node_of_not_admits hadm)))

/-! ## Whole runs -/

/-- A call of the routine for expressions that is made at the cursor `c`, while `depth` other
expressions are being read, comes back with the expression `e`, the cursor at `d` and the counter at
`depth'`. -/
def Returns (g : Grammar) (minPower : Nat) (c : Cursor) (depth : Nat) (e : Expr) (h : Nat)
    (d : Cursor) (depth' : Nat) : Prop :=
  Leads g ⟨.expression minPower, [], c, depth⟩ ⟨.done e h, [], d, depth'⟩

/-- A call comes back with what the routine finds, and it leaves the counter as it was. -/
theorem returns_iff {minPower depth depth' : Nat} {c : Cursor} :
    Returns g minPower c depth e h d depth' ↔
      g.readExpression depth minPower c = .parsed e h d ∧ depth' = depth := by
  constructor
  · intro hreturns
    -- the routine comes to an end in some way, and the machine with it; it cannot come back in
    -- another way
    rcases parses_or_fails g (.expression depth minPower c) with
      ⟨e', h', d', hrun⟩ | ⟨fault, d', hrun⟩
    · cases hreturns.unique (hrun.leads .expression) rfl rfl
      exact ⟨hrun.outcome_eq, rfl⟩
    · have hfault : LeadsToFault g ⟨.expression minPower, [], c, depth⟩ fault d' :=
        hrun.leads .expression
      obtain ⟨stack, depth'', hleads⟩ := hfault
      cases hreturns.unique hleads rfl rfl
  · rintro ⟨hrun, rfl⟩
    exact (parses_of_outcome (.expression _ _ _) hrun).leads .expression

/-- A machine that has an answer has stopped. -/
theorem step_of_answer {x : Machine} {r : Except Fault Expr} (h : x.answer? = some r) :
    x.step g = none := by
  obtain ⟨control, stack, c, depth⟩ := x
  cases control with
  | failed fault => rfl
  | done e height =>
    cases stack with
    | nil => rfl
    | cons frame stack => cases h
  | expression | operand | extend | attach => cases h

/-- The machine comes to the answer that the routines give for the whole sequence. -/
theorem exists_answer (g : Grammar) (source : String) (lexemes : List Lexeme) :
    ∃ x, Leads g (Machine.start source lexemes) x ∧
      x.answer? = some (g.parse source lexemes) := by
  have hbegins : Begins (.expression 0 0 (Cursor.ofLexemes source lexemes)) []
      (Machine.start source lexemes) := .expression
  rcases parses_or_fails g (.expression 0 0 (Cursor.ofLexemes source lexemes)) with
    ⟨e, h, d, hrun⟩ | ⟨fault, d, hrun⟩
  · refine ⟨_, hrun.leads hbegins, ?_⟩
    have houtcome := hrun.outcome_eq
    simp only [Call.outcome] at houtcome
    rw [parse_eq, houtcome]
    rfl
  · obtain ⟨stack, depth, hleads⟩ := hrun.leads hbegins
    refine ⟨_, hleads, ?_⟩
    rw [parse_of_fails hrun]
    rfl

/-- The answer that the machine comes to is the result of the parse, and it comes to no other. -/
theorem parse_eq_iff {source : String} {lexemes : List Lexeme} {r : Except Fault Expr} :
    g.parse source lexemes = r ↔
      ∃ x, Leads g (Machine.start source lexemes) x ∧ x.answer? = some r := by
  obtain ⟨x, hleads, hanswer⟩ := exists_answer g source lexemes
  constructor
  · rintro rfl
    exact ⟨x, hleads, hanswer⟩
  · rintro ⟨y, hleads', hanswer'⟩
    have heq := hleads.unique hleads' (step_of_answer hanswer) (step_of_answer hanswer')
    rw [heq, hanswer'] at hanswer
    exact (Option.some_injective _ hanswer).symm

end Grammar

end UnitCalc
