import UnitCalc.Cursor
import UnitCalc.Expr
import UnitCalc.Lexeme.Arrangement
import UnitCalc.Lexeme.Tokenize

/-!
# From lexemes to expressions

Expressions are read by binding power. An operand is read first; then, as long as the next lexeme
is an operator or an opening parenthesis that binds more tightly than what stands to the left, it is
attached to the expression read so far. Four routines read from a cursor and call each other:

* `expression`: an operand and everything attached to it that binds tightly enough;
* `operand`: a number, a name, a sign with its operand, or an expression in parentheses;
* `extend`: attaches what follows an expression;
* `attach`: the right side of an operator, or the argument of a call.

Every routine reports where it stopped, and a success proves that something was read, so that the
recursion ends on the number of lexemes that are left. Nesting may be limited: both the number of
expressions being read inside one another and the height of the trees built count against the limit.
-/

namespace UnitCalc

/-! ## Binding powers -/

/-- How tightly an operator binds to what stands on its left. -/
def Operator.bindingPower : Operator → Nat
  | add | subtract => 20
  | multiply | divide => 30
  | power => 40

/-- What binds more tightly than this belongs to the right side of the operator. Powers group to
the right, so another power does; all other operators group to the left. -/
def Operator.rightPower : Operator → Nat
  | power => 39
  | op => op.bindingPower

/-- What binds more tightly than this belongs to the operand of a sign. -/
def signPower : Nat := 20

/-- A way of going on behind an expression: an operator, or an argument in parentheses. -/
inductive Link where
  | operator (op : Operator)
  | argument
  deriving DecidableEq, Repr

/-- The way of going on that a token begins, if it does. -/
def Token.link? : Token → Option Link
  | operator op => some (.operator op)
  | openParen => some .argument
  | _ => none

/-- How tightly the continuation binds to the expression in front of it. -/
def Link.bindingPower : Link → Nat
  | operator op => op.bindingPower
  | argument => 50

/-! ## Grammars and replies -/

/-- What the reading of expressions depends on: the meaning of names, and how many levels of
nesting there may be, if that is limited. -/
structure Grammar where
  scope : Scope
  limit : Option Nat

namespace Grammar

/-- Whether the given number of levels keeps to the limit. -/
def admits (g : Grammar) (levels : Nat) : Bool := g.limit.all (levels ≤ ·)

/-- What a routine has found, and the cursor where it stopped. A success left fewer lexemes than
the bound. -/
inductive Reply (bound : Nat) where
  | parsed (expr : Expr) (height : Nat) (cursor : Cursor) (shorter : cursor.remaining < bound)
  | failed (fault : Fault) (cursor : Cursor)

/-- The same reply under a greater bound. -/
def Reply.widen {a b : Nat} (h : a ≤ b) : Reply a → Reply b
  | parsed expr height cursor shorter => .parsed expr height cursor (Nat.lt_of_lt_of_le shorter h)
  | failed fault cursor => .failed fault cursor

/-- Goes on from a success; a fault stays. -/
def Reply.andThen {a b : Nat} (reply : Reply a)
    (next : Expr → Nat → (cursor : Cursor) → cursor.remaining < a → Reply b) : Reply b :=
  match reply with
  | parsed expr height cursor shorter => next expr height cursor shorter
  | failed fault cursor => .failed fault cursor

/-- Replies with a node of the given height, unless it is too high. -/
def node (g : Grammar) {bound : Nat} (expr : Expr) (height : Nat) (cursor : Cursor)
    (shorter : cursor.remaining < bound) : Reply bound :=
  if g.admits height then .parsed expr height cursor shorter else .failed .nestingTooDeep cursor

/-- Reads a closing parenthesis in front of what is to come. -/
def closing {bound : Nat} (c : Cursor) (next : Reply bound) : Reply bound :=
  match (c.expect .closeParen).1 with
  | .ok _ => next
  | .error fault => .failed fault c.advance

/-! ## The routines -/

mutual

/-- Reads an expression, up to the first lexeme that does not bind more tightly than `minPower`.
Around it, `depth` other expressions are being read. -/
def expression (g : Grammar) (depth minPower : Nat) (c : Cursor) : Reply c.remaining :=
  if g.admits (depth + 1) then
    (g.operand (depth + 1) c).andThen fun expr height next shorter =>
      (g.extend (depth + 1) minPower expr height next).widen shorter
  else .failed .nestingTooDeep c
termination_by 4 * c.remaining + 1

/-- Reads an operand. A plus sign in front of it leaves no trace. -/
def operand (g : Grammar) (depth : Nat) (c : Cursor) : Reply c.remaining :=
  match h : c.peek.token with
  | .number value => .parsed (.literal value) 1 c.advance (c.remaining_advance_lt (by simp [h]))
  | .name name =>
    match g.scope name with
    | some binding =>
      .parsed (.identifier ⟨name, binding⟩) 1 c.advance (c.remaining_advance_lt (by simp [h]))
    | none => .failed (.unknownIdentifier name (some c.peek.position)) c.advance
  | .operator .add => (g.expression depth signPower c.advance).widen c.remaining_advance_le
  | .operator .subtract =>
    (g.expression depth signPower c.advance).andThen fun expr height next shorter =>
      g.node (.negate expr) (height + 1) next (Nat.lt_of_lt_of_le shorter c.remaining_advance_le)
  | .openParen =>
    (g.expression depth 0 c.advance).andThen fun expr height next shorter =>
      closing next (.parsed expr height next.advance
        (Nat.lt_of_le_of_lt next.remaining_advance_le
          (Nat.lt_of_lt_of_le shorter c.remaining_advance_le)))
  | _ => .failed c.peek.unexpected c.advance
termination_by 4 * c.remaining
decreasing_by all_goals
  have := c.remaining_advance_lt (by simp [h])
  omega

/-- Attaches to an expression of the given height whatever follows it and binds more tightly than
`minPower`. -/
def extend (g : Grammar) (depth minPower : Nat) (expr : Expr) (height : Nat) (c : Cursor) :
    Reply (c.remaining + 1) :=
  match c.peek.token.link? with
  | none => .parsed expr height c (Nat.lt_succ_self _)
  | some link =>
    if link.bindingPower ≤ minPower then .parsed expr height c (Nat.lt_succ_self _)
    else
      (g.attach depth link expr height c.advance).andThen fun larger newHeight next shorter =>
        (g.extend depth minPower larger newHeight next).widen
          (Nat.le_succ_of_le (Nat.lt_of_lt_of_le shorter c.remaining_advance_le))
termination_by 4 * c.remaining + 3
decreasing_by all_goals
  have := c.remaining_advance_le
  omega

/-- Reads what a link joins to the expression on its left. Only a name that means a function takes
an argument; it may stand in parentheses. -/
def attach (g : Grammar) (depth : Nat) (link : Link) (left : Expr) (height : Nat) (c : Cursor) :
    Reply c.remaining :=
  match link, left with
  | .operator op, left =>
    (g.expression depth op.rightPower c).andThen fun right rightHeight next shorter =>
      g.node (.binary op left right) (max height rightHeight + 1) next shorter
  | .argument, .identifier callee =>
    match callee.binding with
    | .constant _ => .failed (.notAFunction callee.name) c
    | .function _ =>
      (g.expression depth 0 c).andThen fun argument argumentHeight next shorter =>
        closing next (g.node (.call callee argument) (argumentHeight + 1) next.advance
          (Nat.lt_of_le_of_lt next.remaining_advance_le shorter))
  | .argument, _ => .failed .notInvocable c
termination_by 4 * c.remaining + 2

end

/-- Reads a whole sequence of lexemes as one expression. -/
def parse (g : Grammar) (source : String) (lexemes : List Lexeme) : Except Fault Expr :=
  match g.expression 0 0 (Cursor.ofLexemes source lexemes) with
  | .parsed expr _ next _ => if next.isAtEnd then .ok expr else .error next.peek.unexpected
  | .failed fault _ => .error fault

end Grammar

/-! ## From text -/

/-- How many levels of nesting an expression may have. -/
def nestingLimit : Nat := 256

/-- Reads the expression of a text. The text is cut into lexemes as a whole, then checked as a
whole, and only then read. -/
def Expr.ofText (scope : Scope) (text : String) : Except Fault Expr := do
  let lexemes ← tokenize text
  checkArrangement lexemes
  Grammar.parse ⟨scope, some nestingLimit⟩ text lexemes

end UnitCalc
