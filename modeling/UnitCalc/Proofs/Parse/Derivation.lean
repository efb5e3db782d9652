import Mathlib
import UnitCalc.Expr
import UnitCalc.Lexeme

/-!
# The grammar of expressions

The expressions, as a grammar over tokens. `Derives scope s w e` says that the nonterminal `s`
derives the tokens `w`, and that `e` is the tree of that derivation.

A sign in front of an operand takes everything that binds more tightly than a sum, so it stands only
where nothing but a sum can go on behind it: a `tail` is an operand whose last atom has a sign in
front of it, and a `term` is a product that may end in a tail.

```text
sum     = term | sum (+|-) term
term    = product | tail | product (*|/) tail
tail    = + term | - term | atom ^ tail
product = power | product (*|/) power
power   = atom | atom ^ power
atom    = number | name | ( sum ) | callee ( sum )
callee  = name | ( sum )
```

A name means what the scope says, and a callee has to be the name of a function, possibly in
parentheses. The inclusions between the nonterminals stand at the end.
-/

namespace UnitCalc

/-- The nonterminals of the grammar. -/
inductive Nonterminal where
  | sum | term | tail | product | power | atom | callee
  deriving DecidableEq

/-- The nonterminal derives the tokens, with this tree. -/
inductive Derives (scope : Scope) : Nonterminal → List Token → Expr → Prop where
  | sum_term {w : List Token} {e : Expr} (h : Derives scope .term w e) : Derives scope .sum w e
  | sum_add {op : Operator} {w v : List Token} {e f : Expr} (hop : op = .add ∨ op = .subtract)
      (hleft : Derives scope .sum w e) (hright : Derives scope .term v f) :
      Derives scope .sum (w ++ .operator op :: v) (.binary op e f)
  | term_product {w : List Token} {e : Expr} (h : Derives scope .product w e) :
      Derives scope .term w e
  | term_tail {w : List Token} {e : Expr} (h : Derives scope .tail w e) : Derives scope .term w e
  | term_multiply {op : Operator} {w v : List Token} {e f : Expr}
      (hop : op = .multiply ∨ op = .divide)
      (hleft : Derives scope .product w e) (hright : Derives scope .tail v f) :
      Derives scope .term (w ++ .operator op :: v) (.binary op e f)
  | tail_plus {w : List Token} {e : Expr} (h : Derives scope .term w e) :
      Derives scope .tail (.operator .add :: w) e
  | tail_minus {w : List Token} {e : Expr} (h : Derives scope .term w e) :
      Derives scope .tail (.operator .subtract :: w) (.negate e)
  | tail_power {w v : List Token} {e f : Expr}
      (hleft : Derives scope .atom w e) (hright : Derives scope .tail v f) :
      Derives scope .tail (w ++ .operator .power :: v) (.binary .power e f)
  | product_power {w : List Token} {e : Expr} (h : Derives scope .power w e) :
      Derives scope .product w e
  | product_multiply {op : Operator} {w v : List Token} {e f : Expr}
      (hop : op = .multiply ∨ op = .divide)
      (hleft : Derives scope .product w e) (hright : Derives scope .power v f) :
      Derives scope .product (w ++ .operator op :: v) (.binary op e f)
  | power_atom {w : List Token} {e : Expr} (h : Derives scope .atom w e) : Derives scope .power w e
  | power_power {w v : List Token} {e f : Expr}
      (hleft : Derives scope .atom w e) (hright : Derives scope .power v f) :
      Derives scope .power (w ++ .operator .power :: v) (.binary .power e f)
  | atom_number (value : Quantity) : Derives scope .atom [.number value] (.literal value)
  | atom_name {name : String} {binding : Binding} (hscope : scope name = some binding) :
      Derives scope .atom [.name name] (.identifier ⟨name, binding⟩)
  | atom_group {w : List Token} {e : Expr} (h : Derives scope .sum w e) :
      Derives scope .atom (.openParen :: (w ++ [.closeParen])) e
  | atom_call {w v : List Token} {id : Identifier} {e : Expr}
      (hcallee : Derives scope .callee w (.identifier id)) (hargument : Derives scope .sum v e) :
      Derives scope .atom (w ++ .openParen :: (v ++ [.closeParen])) (.call id e)
  | callee_name {name : String} {f : UnaryFunction} (hscope : scope name = some (.function f)) :
      Derives scope .callee [.name name] (.identifier ⟨name, .function f⟩)
  | callee_group {w : List Token} {id : Identifier} {f : UnaryFunction}
      (h : Derives scope .sum w (.identifier id)) (hfun : id.binding = .function f) :
      Derives scope .callee (.openParen :: (w ++ [.closeParen])) (.identifier id)

namespace Derives

variable {scope : Scope} {w : List Token} {e : Expr}

/-! ## Callees and atoms -/

theorem callee_function {id : Identifier} (h : Derives scope .callee w (.identifier id)) :
    ∃ f, id.binding = .function f := by
  cases h with
  | callee_name => exact ⟨_, rfl⟩
  | callee_group _ hfun => exact ⟨_, hfun⟩

theorem atom_of_callee (h : Derives scope .callee w e) : Derives scope .atom w e := by
  cases h with
  | callee_name hscope => exact .atom_name hscope
  | callee_group h _ => exact .atom_group h

/-- An atom whose tree is the name of a function can be called. -/
theorem callee_of_atom {id : Identifier} {f : UnaryFunction}
    (h : Derives scope .atom w (.identifier id)) (hfun : id.binding = .function f) :
    Derives scope .callee w (.identifier id) := by
  cases h with
  | atom_name hscope =>
    cases hfun
    exact .callee_name hscope
  | atom_group h => exact .callee_group h hfun

/-! ## Inclusions

From the left to the right of the list `atom`, `power`, `product`, `term`, `sum` every word of one
nonterminal is a word of the next, with the same tree. -/

theorem product_of_atom (h : Derives scope .atom w e) : Derives scope .product w e :=
  .product_power (.power_atom h)

theorem term_of_atom (h : Derives scope .atom w e) : Derives scope .term w e :=
  .term_product (product_of_atom h)

theorem sum_of_atom (h : Derives scope .atom w e) : Derives scope .sum w e :=
  .sum_term (term_of_atom h)

/-- Every word is a sum. -/
theorem to_sum {s : Nonterminal} (h : Derives scope s w e) : Derives scope .sum w e := by
  cases s with
  | sum => exact h
  | term => exact .sum_term h
  | tail => exact .sum_term (.term_tail h)
  | product => exact .sum_term (.term_product h)
  | power => exact .sum_term (.term_product (.product_power h))
  | atom => exact sum_of_atom h
  | callee => exact sum_of_atom (atom_of_callee h)

end Derives

end UnitCalc
