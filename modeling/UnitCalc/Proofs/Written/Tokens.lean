import Mathlib
import UnitCalc.Proofs.Lexeme.MaximalMunch
import UnitCalc.Proofs.RoundTrip
import UnitCalc.Proofs.Units

/-!
# The tokens of a written expression

The written form of an expression is a text; what it says is a sequence of tokens, and that can be
told from the expression directly.

* `Readable`: the expressions whose leaves can be written. Everything that was read from a text is
  one (`readable_of_ofText`), since its numbers were literals and its names were known.
* `tokensOf_text`: the text of a readable expression has the tokens `Expr.tokens`.
* `operatorFault?_tokens`: the only structural fault there can be is a minus sign behind a minus
  sign. A negation is written without parentheses, so this happens where the operand of a negation,
  or the right side of a difference, is a negation.
-/

namespace UnitCalc

namespace Expr

/-- The tokens of the written form. -/
def tokens : Expr → List Token
  | literal value => [.number value]
  | identifier id => [.name id.name]
  | binary op left right =>
    .openParen :: (left.tokens ++ .operator op :: (right.tokens ++ [.closeParen]))
  | call callee argument => .name callee.name :: .openParen :: (argument.tokens ++ [.closeParen])
  | negate operand => .operator .subtract :: operand.tokens

/-- Whether the root is a negation. -/
def isNegation : Expr → Bool
  | negate _ => true
  | _ => false

theorem isNegation_iff {e : Expr} : e.isNegation = true ↔ ∃ operand, e = negate operand := by
  cases e <;> simp [isNegation]

/-- Whether somewhere two minus signs are written side by side. -/
def doublesMinus : Expr → Bool
  | literal _ | identifier _ => false
  | binary op left right =>
    left.doublesMinus || (op = .subtract && right.isNegation) || right.doublesMinus
  | call _ argument => argument.doublesMinus
  | negate operand => operand.isNegation || operand.doublesMinus

end Expr

/-! ## What can be written -/

/-- A number that has a literal, or a name of letters. -/
def Token.Spelled : Token → Prop
  | number value => ∃ w, Literal w value
  | name text => text.toList ≠ [] ∧ ∀ c ∈ text.toList, c.isAlpha = true
  | operator _ | openParen | closeParen | endOfInput => True

/-- The name is made of letters, and it means what the scope says. -/
structure Identifier.Known (scope : Scope) (id : Identifier) : Prop where
  spelled : (Token.name id.name).Spelled
  binding : scope id.name = some id.binding

/-- All numbers of the expression have literals, and all its names are known under the scope. -/
inductive Readable (scope : Scope) : Expr → Prop where
  | literal {value : Quantity} (h : (Token.number value).Spelled) :
      Readable scope (.literal value)
  | identifier {id : Identifier} (h : id.Known scope) : Readable scope (.identifier id)
  | binary {op : Operator} {left right : Expr} (hleft : Readable scope left)
      (hright : Readable scope right) : Readable scope (.binary op left right)
  | call {callee : Identifier} {f : UnaryFunction} {argument : Expr} (h : callee.Known scope)
      (hfun : callee.binding = .function f) (hargument : Readable scope argument) :
      Readable scope (.call callee argument)
  | negate {operand : Expr} (h : Readable scope operand) : Readable scope (.negate operand)

/-- What is derived from tokens that can be written can be written. -/
theorem readable_of_derives {scope : Scope} {s : Nonterminal} {w : List Token} {e : Expr}
    (hderives : Derives scope s w e) (hspelled : ∀ t ∈ w, t.Spelled) : Readable scope e := by
  induction hderives with
  | sum_term _ ih | term_product _ ih | term_tail _ ih | product_power _ ih | power_atom _ ih =>
    exact ih hspelled
  -- the sides of an operation have tokens of the whole
  | sum_add _ _ _ ihl ihr | term_multiply _ _ _ ihl ihr | tail_power _ _ ihl ihr
  | product_multiply _ _ _ ihl ihr | power_power _ _ ihl ihr =>
    exact .binary (ihl fun t ht => hspelled t (by simp [ht]))
      (ihr fun t ht => hspelled t (by simp [ht]))
  | tail_plus _ ih => exact ih fun t ht => hspelled t (by simp [ht])
  | tail_minus _ ih => exact .negate (ih fun t ht => hspelled t (by simp [ht]))
  | atom_number => exact .literal (hspelled _ (by simp))
  | atom_name hscope | callee_name hscope => exact .identifier ⟨hspelled _ (by simp), hscope⟩
  | atom_group _ ih | callee_group _ _ ih => exact ih fun t ht => hspelled t (by simp [ht])
  | atom_call hcallee _ ihcallee ih =>
    obtain ⟨f, hfun⟩ := hcallee.callee_function
    -- what is called is read as a name by itself
    have hname := ihcallee fun t ht => hspelled t (by simp [ht])
    cases hname with
    | identifier hknown => exact .call hknown hfun (ih fun t ht => hspelled t (by simp [ht]))

/-- Every lexeme of a text has a token that can be written. -/
theorem spelled_of_tokenize {text : String} {lexemes : List Lexeme}
    (h : tokenize text = .ok lexemes) : ∀ l ∈ lexemes, l.token.Spelled := by
  intro l hl
  obtain ⟨before, rest, r, -, -, -, hlongest, hmakes⟩ := (decomposition_of_tokenize h).cut l hl
  have hmem := hlongest.mem
  generalize l.text.toList = w, l.token = t at hmakes hmem
  cases hmakes with
  | number hliteral => exact ⟨w, hliteral⟩
  | name =>
    show (String.ofList w).toList ≠ [] ∧ ∀ c ∈ (String.ofList w).toList, c.isAlpha = true
    rw [String.toList_ofList]
    exact mem_someOf.1 hmem
  | operator | openParen | closeParen => trivial

/-- Whatever was read from a text can be written. -/
theorem readable_of_ofText {scope : Scope} {text : String} {e : Expr}
    (h : Expr.ofText scope text = .ok e) : Readable scope e := by
  obtain ⟨lexemes, htokenize, h⟩ := exists_of_bind_eq_ok h
  obtain ⟨⟨⟩, -, hparse⟩ := exists_of_bind_eq_ok h
  refine readable_of_derives (Grammar.derives_of_parse hparse) fun t ht => ?_
  obtain ⟨l, hl, rfl⟩ := List.mem_map.1 ht
  exact spelled_of_tokenize htokenize l hl

/-! ## The tokens of the text -/

/-- The text of a finite number that was read is a literal for it. It is no negative number, so
there is no minus sign. -/
theorem Literal.text {w : List Char} {value : Quantity} (h : Literal w value)
    (hfinite : value.magnitude.isFinite = true) : Literal value.text.toList value := by
  have hparts : Binary64.isSigned value.magnitude = false ∧ value.ratio = false := by
    cases h with
    | bare | unit => exact ⟨Binary64.isSigned_toFloat (Nat.min_le_left _ _), rfl⟩
  obtain ⟨hsign, hratio⟩ := hparts
  obtain ⟨w', hliteral, htext⟩ := text_toList (Binary64.isFinite_iff.1 hfinite)
  rw [isNegative, hsign, Bool.false_and, if_neg (by simp)] at htext
  rw [Binary64.toFloat_rankOf hsign, ← hratio] at hliteral
  rw [htext]
  exact hliteral

/-- The written form of a readable expression has its tokens, if its numbers are finite. -/
theorem tokensOf_text {scope : Scope} {e : Expr} (h : Readable scope e)
    (hfinite : ∀ value, .literal value ∈ e.postorder → value.magnitude.isFinite = true) :
    tokensOf e.text.toList = .ok e.tokens := by
  have hopen : Token.ofSymbol? '(' = some .openParen := by decide
  have hclose : Token.ofSymbol? ')' = some .closeParen := by decide
  have hend : tokensOf [')'] = .ok [.closeParen] := by
    rw [tokensOf_sign hclose, tokensOf_nil]
    rfl
  induction h with
  | literal h =>
    obtain ⟨w, hliteral⟩ := h
    exact tokensOf_literal (hliteral.text (hfinite _ (by simp [Expr.postorder])))
  | identifier h => exact tokensOf_name h.spelled.1 h.spelled.2
  -- the written form has blanks around the operator and breaks at both parentheses
  | @binary op left right _ _ ihl ihr =>
    have hleft := ihl fun value hvalue => hfinite value (by simp [Expr.postorder, hvalue])
    have hright := ihr fun value hvalue => hfinite value (by simp [Expr.postorder, hvalue])
    have htext : (Expr.binary op left right).text.toList =
        '(' :: (left.text.toList ++ ' ' :: op.symbol :: ' ' :: (right.text.toList ++ [')'])) := by
      simp [Expr.text]
    have hinside := tokensOf_operator op hleft (tokensOf_append (breaks_sign hclose) hright hend)
    rw [htext, tokensOf_sign hopen, hinside]
    rfl
  | @call callee f argument h _ _ ih =>
    have hargument := ih fun value hvalue => hfinite value (by simp [Expr.postorder, hvalue])
    have htext : (Expr.call callee argument).text.toList =
        callee.name.toList ++ '(' :: (argument.text.toList ++ [')']) := by
      simp [Expr.text]
    have hbehind : tokensOf ('(' :: (argument.text.toList ++ [')'])) =
        .ok (.openParen :: (argument.tokens ++ [.closeParen])) := by
      rw [tokensOf_sign hopen, tokensOf_append (breaks_sign hclose) hargument hend]
      rfl
    rw [htext]
    exact tokensOf_append (breaks_sign hopen) (tokensOf_name h.spelled.1 h.spelled.2) hbehind
  | @negate operand _ ih =>
    have hoperand := ih fun value hvalue => hfinite value (by simp [Expr.postorder, hvalue])
    have htext : (Expr.negate operand).text.toList =
        Operator.subtract.symbol :: operand.text.toList := by
      simp [Expr.text, Operator.symbol]
    rw [htext, tokensOf_sign (ofSymbol?_symbol .subtract), hoperand]
    rfl

/-! ## How the tokens are arranged -/

namespace Expr

/-- No two numbers are written side by side. -/
theorem hasAdjacentNumbers_tokens (e : Expr) : hasAdjacentNumbers e.tokens = false := by
  induction e with
  | literal | identifier => rfl
  | binary op left right ihl ihr =>
    rw [tokens, hasAdjacentNumbers_cons rfl, hasAdjacentNumbers_append rfl,
      hasAdjacentNumbers_append rfl, ihl, ihr]
    rfl
  | call callee argument ih =>
    rw [tokens, hasAdjacentNumbers_cons rfl, hasAdjacentNumbers_cons rfl,
      hasAdjacentNumbers_append rfl, ih]
    rfl
  | negate operand ih => rw [tokens, hasAdjacentNumbers_cons rfl, ih]

/-- All parentheses that are written pair up. -/
theorem parenthesisFault?_tokens (e : Expr) : parenthesisFault? 0 e.tokens = none := by
  induction e with
  | literal | identifier => rfl
  | binary op left right ihl ihr =>
    -- both sides pair up, so the operator between them changes nothing
    have hinside : parenthesisFault? 0 (left.tokens ++ .operator op :: right.tokens) = none := by
      have hpass := parenthesisFault?_append 0 (.operator op :: right.tokens) ihl
      rw [hpass]
      exact ihr
    have haround := parenthesisFault?_around (x := []) (y := []) rfl hinside rfl
    simpa [tokens] using haround
  | call callee argument ih =>
    exact parenthesisFault?_around (x := [.name callee.name]) (y := []) rfl ih rfl
  | negate operand ih => exact ih

/-- An operator in front of an expression. What stands behind that does not matter yet. -/
theorem operatorFault?_operator (op : Operator) (e : Expr) (v : List Token) :
    operatorFault? (.operator op :: (e.tokens ++ v)) =
      if op = .subtract && e.isNegation then some .doubleMinus
      else operatorFault? (e.tokens ++ v) := by
  cases e with
  | negate operand =>
    show operatorFault? (.operator op :: .operator .subtract :: (operand.tokens ++ v)) = _
    rw [operatorFault?]
    cases op <;> rfl
  | literal | identifier | binary | call =>
    -- the first token is no operator
    simp only [isNegation, Bool.and_false, Bool.false_eq_true, ↓reduceIte]
    exact operatorFault?_cons_cons rfl _

/-- The only fault of operators is a minus sign behind a minus sign. Nothing is wrong where an
expression ends. -/
theorem operatorFault?_tokens_append (e : Expr) (v : List Token) :
    operatorFault? (e.tokens ++ v) =
      if e.doublesMinus then some .doubleMinus else operatorFault? v := by
  induction e generalizing v with
  | literal | identifier => exact operatorFault?_cons rfl v
  | binary op left right ihl ihr =>
    rw [tokens, List.cons_append, List.append_assoc, List.cons_append, List.append_assoc,
      operatorFault?_cons rfl, ihl, operatorFault?_operator, ihr, List.singleton_append,
      operatorFault?_cons rfl, doublesMinus]
    -- the left side, the operator with the right side, and the right side itself, in this order
    cases left.doublesMinus <;> cases (op = .subtract && right.isNegation : Bool) <;> rfl
  | call callee argument ih =>
    rw [tokens, List.cons_append, List.cons_append, List.append_assoc, operatorFault?_cons rfl,
      operatorFault?_cons rfl, ih, List.singleton_append, operatorFault?_cons rfl]
    rfl
  | negate operand ih =>
    rw [tokens, List.cons_append, operatorFault?_operator, ih, doublesMinus]
    cases operand.isNegation <;> rfl

/-- A written expression has a structural fault only if two minus signs are side by side. -/
theorem arrangementFault?_tokens (e : Expr) :
    arrangementFault? e.tokens = if e.doublesMinus then some .doubleMinus else none := by
  have hoperators := e.operatorFault?_tokens_append []
  rw [List.append_nil] at hoperators
  rw [arrangementFault?, e.hasAdjacentNumbers_tokens, hoperators, e.parenthesisFault?_tokens]
  cases e.doublesMinus <;> rfl

end Expr

end UnitCalc
