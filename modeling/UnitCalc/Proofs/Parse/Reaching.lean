import Mathlib
import UnitCalc.Proofs.Parse.Nesting
import UnitCalc.Proofs.Reading

/-!
# Getting from tokens to tokens

What a routine does is decided by the tokens in front of it. `Reaches g a w v e` says that the
routine `a`, started anywhere in front of the tokens `w`, stops in front of the tokens `v` with the
tree `e`. A reading is put together from the inside to the outside: there is one lemma for each
thing that a routine can do, and it says which readings the reading consists of and what the limit
on nesting has to leave room for.

* `Reaches.number`, `name`, `minus`, `group`: the ways to read an operand.
* `Reaches.expression`, `link`, `argument`, `stop`: an operand, and what is attached to it.
* `parse_of_reaches`: a reading of all tokens of a sequence.
-/

namespace UnitCalc

theorem Expr.one_le_height (e : Expr) : 1 ≤ e.height := by
  cases e <;> simp [Expr.height]

namespace Grammar

/-- Started anywhere in front of the first tokens, the routine stops in front of the second ones
with the tree. -/
def Reaches (g : Grammar) (a : Cursor → Call) (w v : List Token) (e : Expr) : Prop :=
  ∀ c : Cursor, c.tokens = w → ∃ d : Cursor, d.tokens = v ∧ Parses g (a c) e e.height d

/-- How tightly the first of the tokens binds to what is in front of them. -/
def headPower (v : List Token) : Nat :=
  match v.head?.bind Token.link? with
  | some link => link.bindingPower
  | none => 0

/-- How tightly the next lexeme binds is a matter of its token. -/
theorem nextPower_eq_headPower (c : Cursor) : nextPower c = headPower c.tokens := by
  obtain ⟨source, rest, taken⟩ := c
  cases rest with
  | nil => rfl
  | cons lexeme rest => rfl

theorem bindingPower_pos (op : Operator) : 0 < op.bindingPower := by
  cases op <;> decide

namespace Reaches

variable {scope : Scope} {limit depth minPower : Nat} {w v u : List Token} {e f : Expr}

/-- Nothing more is attached if what comes next binds no more tightly than the minimum. -/
theorem stop {g : Grammar} (hpow : headPower v ≤ minPower) :
    Reaches g (.extend depth minPower e e.height) v v e := by
  intro c hc
  rw [← hc, ← nextPower_eq_headPower] at hpow
  exact ⟨c, hc, .stop hpow⟩

theorem number {g : Grammar} (value : Quantity) (v : List Token) :
    Reaches g (.operand depth) (.number value :: v) v (.literal value) := by
  intro c hc
  obtain ⟨-, hpeek, htail⟩ := Cursor.peek_token_of_tokens hc
  exact ⟨c.advance, htail, .number hpeek⟩

theorem name {g : Grammar} {name : String} {binding : Binding}
    (hscope : g.scope name = some binding) (v : List Token) :
    Reaches g (.operand depth) (.name name :: v) v (.identifier ⟨name, binding⟩) := by
  intro c hc
  obtain ⟨-, hpeek, htail⟩ := Cursor.peek_token_of_tokens hc
  exact ⟨c.advance, htail, .name hpeek hscope⟩

/-- An expression is an operand and what is attached to it, one level further inside. -/
theorem expression (hdepth : depth + 1 ≤ limit)
    (hop : Reaches ⟨scope, some limit⟩ (.operand (depth + 1)) w v e)
    (hext : Reaches ⟨scope, some limit⟩ (.extend (depth + 1) minPower e e.height) v u f) :
    Reaches ⟨scope, some limit⟩ (.expression depth minPower) w u f := by
  intro c hc
  obtain ⟨d, hd, hoperand⟩ := hop c hc
  obtain ⟨d', hd', hextension⟩ := hext d hd
  exact ⟨d', hd', .expression (admits_some.2 hdepth) hoperand hextension⟩

/-- A minus sign takes an expression of its own power, and puts one level on top of it. -/
theorem minus (hheight : e.height + 1 ≤ limit)
    (hexp : Reaches ⟨scope, some limit⟩ (.expression depth signPower) w v e) :
    Reaches ⟨scope, some limit⟩ (.operand depth) (.operator .subtract :: w) v (.negate e) := by
  intro c hc
  obtain ⟨-, hpeek, htail⟩ := Cursor.peek_token_of_tokens hc
  obtain ⟨d, hd, hexpression⟩ := hexp c.advance htail
  exact ⟨d, hd, .minus hpeek hexpression (admits_some.2 hheight)⟩

theorem group {g : Grammar} (hexp : Reaches g (.expression depth 0) w (.closeParen :: v) e) :
    Reaches g (.operand depth) (.openParen :: w) v e := by
  intro c hc
  obtain ⟨-, hpeek, htail⟩ := Cursor.peek_token_of_tokens hc
  obtain ⟨d, hd, hexpression⟩ := hexp c.advance htail
  obtain ⟨-, hclose, hrest⟩ := Cursor.peek_token_of_tokens hd
  exact ⟨d.advance, hrest, .group hpeek hexpression hclose⟩

/-- An operator that binds more tightly than the minimum takes its right side, and the whole is gone
on with. -/
theorem link {op : Operator} {left right : Expr} (hpow : minPower < op.bindingPower)
    (hheight : (Expr.binary op left right).height ≤ limit)
    (hright : Reaches ⟨scope, some limit⟩ (.expression depth op.rightPower) w v right)
    (hext : Reaches ⟨scope, some limit⟩
      (.extend depth minPower (.binary op left right) (Expr.binary op left right).height) v u e) :
    Reaches ⟨scope, some limit⟩ (.extend depth minPower left left.height)
      (.operator op :: w) u e := by
  intro c hc
  obtain ⟨-, hpeek, htail⟩ := Cursor.peek_token_of_tokens hc
  obtain ⟨d, hd, hexpression⟩ := hright c.advance htail
  obtain ⟨d', hd', hextension⟩ := hext d hd
  have hlink : c.peek.token.link? = some (.operator op) := by
    rw [hpeek]
    rfl
  exact ⟨d', hd', .link hlink hpow (.operator hexpression (admits_some.2 hheight)) hextension⟩

/-- The name of a function takes the argument in the parentheses behind it, and the call is gone on
with. -/
theorem argument {callee : Identifier} {function : UnaryFunction} {argument : Expr}
    (hfun : callee.binding = .function function) (hpow : minPower < 50)
    (hheight : (Expr.call callee argument).height ≤ limit)
    (hargument : Reaches ⟨scope, some limit⟩ (.expression depth 0) w (.closeParen :: v) argument)
    (hext : Reaches ⟨scope, some limit⟩
      (.extend depth minPower (.call callee argument) (Expr.call callee argument).height) v u e) :
    Reaches ⟨scope, some limit⟩
      (.extend depth minPower (.identifier callee) (Expr.identifier callee).height)
      (.openParen :: w) u e := by
  intro c hc
  obtain ⟨-, hpeek, htail⟩ := Cursor.peek_token_of_tokens hc
  obtain ⟨d, hd, hexpression⟩ := hargument c.advance htail
  obtain ⟨-, hclose, hrest⟩ := Cursor.peek_token_of_tokens hd
  obtain ⟨d', hd', hextension⟩ := hext d.advance hrest
  have hlink : c.peek.token.link? = some .argument := by
    rw [hpeek]
    rfl
  exact ⟨d', hd',
    .link hlink hpow (.argument hfun hexpression hclose (admits_some.2 hheight)) hextension⟩

end Reaches

/-- A reading of all tokens of a sequence is what the parser makes of it. -/
theorem parse_of_reaches {g : Grammar} {source : String} {lexemes : List Lexeme} {e : Expr}
    (h : Reaches g (.expression 0 0) (lexemes.map Lexeme.token) [] e) :
    g.parse source lexemes = .ok e := by
  obtain ⟨d, hd, hrun⟩ := h (Cursor.ofLexemes source lexemes) rfl
  exact parse_eq_ok.2 ⟨e.height, d, hrun, List.map_eq_nil_iff.1 hd⟩

end Grammar

end UnitCalc
