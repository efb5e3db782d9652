import UnitCalc.Expr.Parse

/-!
# The reading of expressions, as equations

The routines of the grammar carry proofs along, which the recursion needs and nobody else does. An
`Outcome` is a reply without its proof. The routines are restated here on outcomes, and one equation
for each says what it does; statements about the reading of expressions rest on these equations and
not on the recursion.
-/

namespace UnitCalc

namespace Grammar

/-- What a routine has found, and the cursor where it stopped. -/
inductive Outcome where
  | parsed (expr : Expr) (height : Nat) (cursor : Cursor)
  | failed (fault : Fault) (cursor : Cursor)

namespace Outcome

/-- Goes on from a success; a fault stays. -/
def andThen (outcome : Outcome) (next : Expr → Nat → Cursor → Outcome) : Outcome :=
  match outcome with
  | parsed expr height cursor => next expr height cursor
  | failed fault cursor => .failed fault cursor

end Outcome

/-- A reply without its proof. -/
def Reply.outcome {bound : Nat} : Reply bound → Outcome
  | parsed expr height cursor _ => .parsed expr height cursor
  | failed fault cursor => .failed fault cursor

/-! ## The routines on outcomes -/

/-- The outcome of `expression`. -/
def readExpression (g : Grammar) (depth minPower : Nat) (c : Cursor) : Outcome :=
  (g.expression depth minPower c).outcome

/-- The outcome of `operand`. -/
def readOperand (g : Grammar) (depth : Nat) (c : Cursor) : Outcome := (g.operand depth c).outcome

/-- The outcome of `extend`. -/
def readExtension (g : Grammar) (depth minPower : Nat) (expr : Expr) (height : Nat) (c : Cursor) :
    Outcome :=
  (g.extend depth minPower expr height c).outcome

/-- The outcome of `attach`. -/
def readAttachment (g : Grammar) (depth : Nat) (link : Link) (left : Expr) (height : Nat)
    (c : Cursor) : Outcome :=
  (g.attach depth link left height c).outcome

/-- The outcome of `node`. -/
def makeNode (g : Grammar) (expr : Expr) (height : Nat) (c : Cursor) : Outcome :=
  if g.admits height then .parsed expr height c else .failed .nestingTooDeep c

/-- The outcome of `closing`. -/
def readClosing (c : Cursor) (next : Outcome) : Outcome :=
  if c.peek.token = .closeParen then next else .failed c.peek.unexpected c.advance

/-! ## Outcomes of the building blocks -/

section Blocks

variable {a b : Nat}

@[simp] theorem outcome_parsed (expr : Expr) (height : Nat) (c : Cursor) (h : c.remaining < a) :
    (Reply.parsed expr height c h).outcome = .parsed expr height c := rfl

@[simp] theorem outcome_failed (fault : Fault) (c : Cursor) :
    (Reply.failed fault c : Reply a).outcome = .failed fault c := rfl

@[simp] theorem outcome_widen (h : a ≤ b) (reply : Reply a) :
    (reply.widen h).outcome = reply.outcome := by
  cases reply <;> rfl

@[simp] theorem outcome_node (g : Grammar) (expr : Expr) (height : Nat) (c : Cursor)
    (h : c.remaining < a) : (g.node expr height c h).outcome = g.makeNode expr height c := by
  unfold node makeNode
  split <;> rfl

/-- Going on from a reply and going on from its outcome are the same, if the two continuations are.
-/
theorem outcome_andThen (reply : Reply a)
    (next : Expr → Nat → (c : Cursor) → c.remaining < a → Reply b)
    (next' : Expr → Nat → Cursor → Outcome)
    (h : ∀ expr height c hc, (next expr height c hc).outcome = next' expr height c) :
    (reply.andThen next).outcome = reply.outcome.andThen next' := by
  cases reply with
  | parsed expr height c hc => exact h expr height c hc
  | failed fault c => rfl

/-- Only a closing parenthesis is accepted as one. -/
theorem agrees_closeParen (t : Token) : t.agrees .closeParen = true ↔ t = .closeParen := by
  cases t <;> simp [Token.agrees]

@[simp] theorem outcome_closing (c : Cursor) (next : Reply a) :
    (closing c next).outcome = readClosing c next.outcome := by
  unfold closing readClosing Cursor.expect
  -- `expect` compares by `agrees`, which is equality for a parenthesis
  by_cases h : c.peek.token = .closeParen
  · simp [agrees_closeParen, h]
  · have hno : ¬ c.peek.token.agrees .closeParen = true := mt (agrees_closeParen _).1 h
    simp [hno, h]

end Blocks

/-! ## One equation for each routine -/

/-- An expression is an operand with everything that extends it, one level deeper. -/
theorem readExpression_eq (g : Grammar) (depth minPower : Nat) (c : Cursor) :
    g.readExpression depth minPower c =
      if g.admits (depth + 1) then
        (g.readOperand (depth + 1) c).andThen fun expr height next =>
          g.readExtension (depth + 1) minPower expr height next
      else .failed .nestingTooDeep c := by
  rw [readExpression, expression]
  split
  · exact outcome_andThen _ _ _ fun _ _ _ _ => outcome_widen _ _
  · rfl

/-- An operand is told by its first token. -/
theorem readOperand_eq (g : Grammar) (depth : Nat) (c : Cursor) :
    g.readOperand depth c =
      match c.peek.token with
      | .number value => .parsed (.literal value) 1 c.advance
      | .name name =>
        match g.scope name with
        | some binding => .parsed (.identifier ⟨name, binding⟩) 1 c.advance
        | none => .failed (.unknownIdentifier name (some c.peek.position)) c.advance
      | .operator .add => g.readExpression depth signPower c.advance
      | .operator .subtract =>
        (g.readExpression depth signPower c.advance).andThen fun expr height next =>
          g.makeNode (.negate expr) (height + 1) next
      | .openParen =>
        (g.readExpression depth 0 c.advance).andThen fun expr height next =>
          readClosing next (.parsed expr height next.advance)
      | _ => .failed c.peek.unexpected c.advance := by
  -- one case for each row: a number, a name, the two signs, a parenthesis, and anything else
  rw [readOperand, operand]
  split
  · rename_i h
    simp only [h, outcome_parsed]
  · rename_i name h
    simp only [h]
    cases g.scope name <;> rfl
  · rename_i h
    simp only [h, outcome_widen, readExpression]
  · rename_i h
    simp only [h]
    exact outcome_andThen _ _ _ fun _ _ _ _ => outcome_node ..
  · rename_i h
    simp only [h]
    exact outcome_andThen _ _ _ fun _ _ _ _ => outcome_closing ..
  · split <;> simp_all

/-- An expression is extended as long as what comes next binds tightly enough. -/
theorem readExtension_eq (g : Grammar) (depth minPower : Nat) (expr : Expr) (height : Nat)
    (c : Cursor) :
    g.readExtension depth minPower expr height c =
      match c.peek.token.link? with
      | none => .parsed expr height c
      | some link =>
        if link.bindingPower ≤ minPower then .parsed expr height c
        else
          (g.readAttachment depth link expr height c.advance).andThen
            fun larger newHeight next => g.readExtension depth minPower larger newHeight next := by
  rw [readExtension, extend]
  cases c.peek.token.link? with
  | none => rfl
  | some link =>
    by_cases h : link.bindingPower ≤ minPower
    · simp [h]
    · simp only [h, ↓reduceIte]
      exact outcome_andThen _ _ _ fun _ _ _ _ => outcome_widen _ _

/-- An operator reads its right side. -/
theorem readAttachment_operator (g : Grammar) (depth : Nat) (op : Operator) (left : Expr)
    (height : Nat) (c : Cursor) :
    g.readAttachment depth (.operator op) left height c =
      (g.readExpression depth op.rightPower c).andThen fun right rightHeight next =>
        g.makeNode (.binary op left right) (max height rightHeight + 1) next := by
  rw [readAttachment, attach]
  exact outcome_andThen _ _ _ fun _ _ _ _ => outcome_node ..

/-- Only a name that means a function reads an argument. -/
theorem readAttachment_argument (g : Grammar) (depth : Nat) (left : Expr) (height : Nat)
    (c : Cursor) :
    g.readAttachment depth .argument left height c =
      match left with
      | .identifier callee =>
        match callee.binding with
        | .constant _ => .failed (.notAFunction callee.name) c
        | .function _ =>
          (g.readExpression depth 0 c).andThen fun argument argumentHeight next =>
            readClosing next (g.makeNode (.call callee argument) (argumentHeight + 1) next.advance)
      | _ => .failed .notInvocable c := by
  cases left with
  | identifier callee =>
    rw [readAttachment, attach]
    split
    · rename_i h
      simp only [h, outcome_failed]
    · rename_i h
      simp only [h]
      refine outcome_andThen _ _ _ fun _ _ _ _ => ?_
      rw [outcome_closing, outcome_node]
  | _ => simp [readAttachment, attach]

/-- The outcome for a whole sequence of lexemes. -/
theorem parse_eq (g : Grammar) (source : String) (lexemes : List Lexeme) :
    g.parse source lexemes =
      match g.readExpression 0 0 (Cursor.ofLexemes source lexemes) with
      | .parsed expr _ next => if next.isAtEnd then .ok expr else .error next.peek.unexpected
      | .failed fault _ => .error fault := by
  unfold parse readExpression
  cases g.expression 0 0 (Cursor.ofLexemes source lexemes) <;> rfl

end Grammar

end UnitCalc
