import Mathlib
import UnitCalc.Proofs.Composition

/-!
# Minus signs behind operators

A minus sign in front of a number takes everything that binds more tightly than a sum, also if it
stands behind `*`, `/` or `^`. So the sign changes how the operators around it group exactly if `*`
or `/` stands behind its number: `a / -b / c` is read as `a / -(b / c)` and not as `(a / -b) / c`.

* `SignsLast`: in a tree without parentheses, nothing with a sign stands on the left side of `*`,
  `/` or `^`. The grammar has this from the start, since a sign belongs to a tail.
* `isChain_of_signsLast`: a tree that has the grouping of the chain without signs, and in which the
  signs are the last, is a tree over a chain in which no sign can take more than its number.
* `ofText_signs_iff`: so the condition under which `Grammar.exists_readings` follows the signs is
  necessary as well.
-/

namespace UnitCalc

/-! ## Where a tree may have signs -/

namespace Expr

/-- There is no negation in the tree. -/
def Signless : Expr → Prop
  | literal _ | identifier _ => True
  | binary _ left right => left.Signless ∧ right.Signless
  | call _ argument => argument.Signless
  | negate _ => False

/-- No operator that binds more tightly than a sign has a negation on its left side. -/
def SignsLast : Expr → Prop
  | literal _ | identifier _ => True
  | binary op left right =>
    (signPower < op.bindingPower → left.Signless) ∧ left.SignsLast ∧ right.SignsLast
  | call _ argument => argument.SignsLast
  | negate operand => operand.SignsLast

end Expr

/-- Whether a word without parentheses has no sign in it. -/
def Nonterminal.signless : Nonterminal → Bool
  | product | power | atom | callee => true
  | sum | term | tail => false

/-- Without parentheses the grammar has no place for a sign in front of an operator that binds more
tightly, and none at all in a product. -/
theorem signs_of_derives {scope : Scope} {s : Nonterminal} {w : List Token} {e : Expr}
    (h : Derives scope s w e) (hparen : .openParen ∉ w) :
    e.SignsLast ∧ (s.signless = true → e.Signless) := by
  induction h with
  | sum_term _ ih | term_tail _ ih => exact ⟨(ih hparen).1, by simp [Nonterminal.signless]⟩
  | term_product _ ih => exact ⟨(ih hparen).1, by simp [Nonterminal.signless]⟩
  | product_power _ ih | power_atom _ ih => exact ⟨(ih hparen).1, fun _ => (ih hparen).2 rfl⟩
  | sum_add hop _ _ ihl ihr =>
    -- a sum does not bind more tightly than a sign
    have hl := ihl fun hmem => hparen (by simp [hmem])
    have hr := ihr fun hmem => hparen (by simp [hmem])
    refine ⟨⟨fun hpow => ?_, hl.1, hr.1⟩, by simp [Nonterminal.signless]⟩
    rcases hop with rfl | rfl
    · exact absurd hpow (by decide)
    · exact absurd hpow (by decide)
  -- the left side of such an operator is a product or an atom, and those are without signs
  | term_multiply _ _ _ ihl ihr | tail_power _ _ ihl ihr =>
    have hl := ihl fun hmem => hparen (by simp [hmem])
    have hr := ihr fun hmem => hparen (by simp [hmem])
    exact ⟨⟨fun _ => hl.2 rfl, hl.1, hr.1⟩, by simp [Nonterminal.signless]⟩
  | product_multiply _ _ _ ihl ihr | power_power _ _ ihl ihr =>
    have hl := ihl fun hmem => hparen (by simp [hmem])
    have hr := ihr fun hmem => hparen (by simp [hmem])
    exact ⟨⟨fun _ => hl.2 rfl, hl.1, hr.1⟩, fun _ => ⟨hl.2 rfl, hr.2 rfl⟩⟩
  | tail_plus _ ih | tail_minus _ ih =>
    have hoperand := ih fun hmem => hparen (by simp [hmem])
    exact ⟨hoperand.1, by simp [Nonterminal.signless]⟩
  | atom_number | atom_name | callee_name => exact ⟨trivial, fun _ => trivial⟩
  -- these two begin with a parenthesis
  | atom_group | atom_call | callee_group => exact absurd (by simp) hparen

/-! ## The signs of a chain -/

open Grammar (Apart)

/-- If the tree over a chain has no negation, then no number of the chain has a sign. -/
theorem signed_eq_false_of_signless {a : Operand} {js : List Joint} {e : Expr} (h : Tree a js e)
    (hsignless : (e.negateLeaves (marks a js)).Signless) (op : Operator) :
    ∀ j ∈ (⟨op, a⟩ :: js : List Joint), j.operand.signed = false := by
  induction h generalizing op with
  | leaf a =>
    obtain ⟨signed, value⟩ := a
    cases signed with
    | false => simp
    | true => exact absurd hsignless id
  -- the first number of the right side stands behind the operator of the node
  | @node a j js ks left right hleft _ ihl ihr =>
    rw [hleft.negateLeaves_node] at hsignless
    have hl := ihl hsignless.1 op
    have hr := ihr hsignless.2 j.op
    intro k hk
    rw [← List.cons_append] at hk
    exact (List.mem_append.1 hk).elim (hl k) (hr k)

/-- If the signs are the last in the tree over a chain, then behind a number with a sign no operator
binds more tightly than the sign. -/
theorem isChain_of_signsLast {a : Operand} {js : List Joint} {e : Expr} (h : Tree a js e)
    (hlast : (e.negateLeaves (marks a js)).SignsLast) (op : Operator) :
    (⟨op, a⟩ :: js : List Joint).IsChain Apart := by
  induction h generalizing op with
  | leaf => simp
  | @node a j js ks left right hleft _ ihl ihr =>
    rw [hleft.negateLeaves_node] at hlast
    obtain ⟨htight, hlast⟩ := hlast
    rw [← List.cons_append]
    refine .append (ihl hlast.1 op) (ihr hlast.2 j.op) fun k hk k' hk' hsigned => ?_
    -- a sign in front of the operator of the node would be on its left side
    cases hk'
    by_contra hpow
    have hsignless := htight (Nat.lt_of_not_le hpow)
    have hfalse := signed_eq_false_of_signless hleft hsignless op k (List.mem_of_mem_getLast? hk)
    rw [hsigned] at hfalse
    exact absurd hfalse (by simp)

/-! ## Chains are well arranged

There are no parentheses in a chain and an operator between any two numbers. Of two operators side
by side the second one is a sign. -/

/-- A chain consists of operators and numbers. -/
theorem isOperator_or_isNumber {a : Operand} {rest : List Joint} {t : Token}
    (h : t ∈ a.tokens ++ jointTokens rest) : t.isOperator = true ∨ t.isNumber = true := by
  have hoperand : ∀ b : Operand, t ∈ b.tokens → t.isOperator = true ∨ t.isNumber = true := by
    intro b hb
    obtain ⟨signed, value⟩ := b
    cases signed with
    | false =>
      rw [List.mem_singleton.1 hb]
      exact .inr rfl
    | true =>
      rcases List.mem_cons.1 hb with rfl | hb
      · exact .inl rfl
      · rw [List.mem_singleton.1 hb]
        exact .inr rfl
  rcases List.mem_append.1 h with h | h
  · exact hoperand a h
  · obtain ⟨j, -, hj⟩ := List.mem_flatMap.1 h
    rcases List.mem_cons.1 hj with rfl | hj
    · exact .inl rfl
    · exact hoperand j.operand hj

/-- Nothing but operators and numbers has no fault of parentheses. -/
theorem parenthesisFault?_eq_none {w : List Token}
    (h : ∀ t ∈ w, t.isOperator = true ∨ t.isNumber = true) : parenthesisFault? 0 w = none := by
  induction w with
  | nil => rfl
  | cons t w ih =>
    have hrest := ih fun t' ht' => h t' (List.mem_cons_of_mem t ht')
    have ht := h t List.mem_cons_self
    -- the count stays at zero, since nothing opens and nothing closes
    cases t with
    | openParen | closeParen => exact absurd ht (by simp [Token.isOperator, Token.isNumber])
    | number | operator | name | endOfInput =>
      rw [parenthesisFault?]
      · exact hrest
      all_goals simp

/-- No two numbers of a chain stand side by side. -/
theorem hasAdjacentNumbers_chain (a : Operand) (rest : List Joint) :
    hasAdjacentNumbers (a.tokens ++ jointTokens rest) = false := by
  have hoperand : ∀ b : Operand, hasAdjacentNumbers b.tokens = false := by
    rintro ⟨signed, value⟩
    cases signed with
    | false => rfl
    | true => rfl
  induction rest generalizing a with
  | nil =>
    show hasAdjacentNumbers (a.tokens ++ []) = false
    rw [List.append_nil, hoperand]
  -- the operator in front of the next number cuts the chain in two
  | cons j rest ih =>
    show hasAdjacentNumbers (a.tokens ++ .operator j.op :: (j.operand.tokens ++ jointTokens rest)) =
      false
    rw [hasAdjacentNumbers_append rfl, hoperand, ih]
    rfl

/-- A number has no fault of operators at its end, with its sign or without it. -/
theorem operatorFault?_operand (a : Operand) (v : List Token) :
    operatorFault? (a.tokens ++ v) = operatorFault? v := by
  obtain ⟨signed, value⟩ := a
  cases signed with
  | false => exact operatorFault?_cons rfl v
  | true =>
    show operatorFault? (.operator .subtract :: .number value :: v) = _
    rw [operatorFault?_cons_cons rfl, operatorFault?_cons rfl]

/-- A sign behind an operator is no fault, unless the operator is a minus as well. -/
theorem operatorFault?_joints {rest : List Joint}
    (hbehind : ∀ j ∈ rest, j.operand.signed = true → j.op ≠ .subtract) :
    operatorFault? (jointTokens rest) = none := by
  induction rest with
  | nil => rfl
  | cons j rest ih =>
    have hrest : operatorFault? (j.operand.tokens ++ jointTokens rest) = none := by
      rw [operatorFault?_operand]
      exact ih fun k hk => hbehind k (List.mem_cons_of_mem j hk)
    have hj := hbehind j List.mem_cons_self
    obtain ⟨op, signed, value⟩ := j
    -- the token behind the operator is a number or a sign, and there is no fault with either
    cases signed with
    | false =>
      show operatorFault? (.operator op :: .number value :: jointTokens rest) = none
      rw [operatorFault?_cons_cons rfl]
      exact hrest
    | true =>
      show operatorFault?
        (.operator op :: .operator .subtract :: .number value :: jointTokens rest) = none
      rw [operatorFault?]
      have hpair : operatorPairFault? (.operator op) (.operator .subtract) = none := by
        cases op with
        | subtract => exact absurd rfl (hj rfl)
        | _ => rfl
      simp only [hpair]
      exact hrest

/-- A chain is well arranged if no minus has a sign behind it. -/
theorem Chain.arranged {chain : Chain}
    (hbehind : ∀ j ∈ chain.rest, j.operand.signed = true → j.op ≠ .subtract) :
    Arranged chain.tokens := by
  have hfault : operatorFault? chain.tokens = operatorFault? (jointTokens chain.rest) :=
    operatorFault?_cons rfl _
  -- the three checks, in the order in which they are made
  refine arranged_iff.2 ⟨hasAdjacentNumbers_chain ⟨false, chain.first⟩ chain.rest, ?_, ?_⟩
  · rw [hfault]
    exact operatorFault?_joints hbehind
  · exact parenthesisFault?_eq_none fun t ht =>
      isOperator_or_isNumber (a := ⟨false, chain.first⟩) ht

/-! ## The texts of a chain -/

/-- No number with a sign stands directly in front of one of these operators. -/
def Chain.NoSignBefore (chain : Chain) (ops : List Operator) : Prop :=
  chain.rest.IsChain fun j k => j.operand.signed = true → k.op ∉ ops

/-- The operators that bind more tightly than a sign are the power, and those of a product. -/
theorem bindingPower_le_signPower {op : Operator} :
    op.bindingPower ≤ signPower ↔ op ∉ [.power] ∧ op ∉ [.multiply, .divide] := by
  cases op <;> decide

/-- That no sign takes more than its number says two things about the operators behind it. -/
theorem Chain.isChain_apart_iff {chain : Chain} :
    chain.rest.IsChain Apart ↔
      chain.NoSignBefore [.power] ∧ chain.NoSignBefore [.multiply, .divide] := by
  simp only [Chain.NoSignBefore, List.isChain_iff_getElem, Apart, bindingPower_le_signPower]
  constructor
  · intro h
    exact ⟨fun i hi hsigned => (h i hi hsigned).1, fun i hi hsigned => (h i hi hsigned).2⟩
  · rintro ⟨hpower, htight⟩ i hi hsigned
    exact ⟨hpower i hi hsigned, htight i hi hsigned⟩

theorem ofText_of_reaches {scope : Scope} {text : String} {chain : Chain} {e : Expr}
    (htokens : tokensOf text.toList = .ok chain.tokens)
    (hbehind : ∀ j ∈ chain.rest, j.operand.signed = true → j.op ≠ .subtract)
    (hrun : Grammar.Reaches ⟨scope, some nestingLimit⟩ (.expression 0 0) chain.tokens [] e) :
    Expr.ofText scope text = .ok e :=
  ofText_of_admitted ⟨htokens, Chain.arranged hbehind⟩ hrun

/-- A chain of up to 200 numbers, with minus signs behind some of its operators `*`, `/` and `^`,
none of them in front of a number with a power. The chain without the signs is an expression. With
the signs the text is the same expression with the numbers negated, if and only if no `*` and no `/`
stands behind a number with a sign. -/
theorem ofText_signs_iff {scope : Scope} {chain : Chain} {text signedText : String}
    (hlength : chain.length ≤ 200)
    (hbehind : ∀ j ∈ chain.rest, j.operand.signed = true → j.op ∈ [.multiply, .divide, .power])
    (hpower : chain.NoSignBefore [.power])
    (htext : tokensOf text.toList = .ok chain.unsigned.tokens)
    (hsigned : tokensOf signedText.toList = .ok chain.tokens) :
    ∃ e, Expr.ofText scope text = .ok e ∧
      (Expr.ofText scope signedText = .ok (e.negateLeaves chain.marks) ↔
        chain.NoSignBefore [.multiply, .divide]) := by
  have hlimit : chain.length + 1 ≤ nestingLimit :=
    Nat.le_trans (Nat.succ_le_succ hlength) (by decide)
  obtain ⟨e, htree, hrun, hsignedRun⟩ := Grammar.exists_readings scope hlimit
  have hnone : ∀ j ∈ chain.unsigned.rest, j.operand.signed = true → j.op ≠ .subtract := by
    intro j hj hsign
    obtain ⟨k, -, rfl⟩ := List.mem_map.1 hj
    exact absurd hsign (by simp [Joint.unsigned, Operand.unsigned])
  have hno : ∀ j ∈ chain.rest, j.operand.signed = true → j.op ≠ .subtract := by
    intro j hj hsign hop
    have := hbehind j hj hsign
    rw [hop] at this
    exact absurd this (by decide)
  refine ⟨e, ofText_of_reaches htext hnone hrun, fun hok => ?_, fun htight => ?_⟩
  · -- the tokens have no parentheses, so the signs of the tree are the last
    obtain ⟨w, hadmitted, hderives⟩ := denotes_of_ofText hok
    have hw : chain.tokens = w := Except.ok.inj (hsigned.symm.trans hadmitted.tokens)
    have hparen : .openParen ∉ chain.tokens := by
      intro hmem
      have := isOperator_or_isNumber (a := ⟨false, chain.first⟩) hmem
      exact absurd this (by simp [Token.isOperator, Token.isNumber])
    rw [← hw] at hderives
    -- a sign in front of `*` or `/` would have to be on the left side of it
    have hlast := (signs_of_derives hderives hparen).1
    have hchain := isChain_of_signsLast htree hlast .add
    exact (Chain.isChain_apart_iff.1 hchain.tail).2
  · exact ofText_of_reaches hsigned hno (hsignedRun (Chain.isChain_apart_iff.2 ⟨hpower, htight⟩))

/-- A sign behind the first of two divisions. -/
theorem ofText_signs_divide :
    ∃ e, Expr.ofText Scope.math "12 / 2 / 3" = .ok e ∧
      Expr.ofText Scope.math "12 / -2 / 3" ≠ .ok (e.negateLeaves [false, true, false]) := by
  have h12 : tokensOf ['1', '2'] = .ok [.number (digitsValue ['1', '2'])] :=
    tokensOf_digits (by simp) (by simp)
  have h2 : tokensOf ['2'] = .ok [.number (digitsValue ['2'])] :=
    tokensOf_digits (by simp) (by simp)
  have h3 : tokensOf ['3'] = .ok [.number (digitsValue ['3'])] :=
    tokensOf_digits (by simp) (by simp)
  have hminus : tokensOf ['-', '2'] = .ok [.operator .subtract, .number (digitsValue ['2'])] := by
    show tokensOf (Operator.subtract.symbol :: ['2']) = _
    rw [tokensOf_sign (ofSymbol?_symbol .subtract), h2]
    rfl
  obtain ⟨e, he, hiff⟩ := @ofText_signs_iff Scope.math
    ⟨digitsValue ['1', '2'],
      [⟨.divide, true, digitsValue ['2']⟩, ⟨.divide, false, digitsValue ['3']⟩]⟩
    "12 / 2 / 3" "12 / -2 / 3" (by decide) (by simp) (by simp [Chain.NoSignBefore])
    (tokensOf_operator .divide h12 (tokensOf_operator .divide h2 h3))
    (tokensOf_operator .divide h12 (tokensOf_operator .divide hminus h3))
  refine ⟨e, he, fun hsigned => ?_⟩
  have htight := hiff.1 hsigned
  exact absurd htight (by simp [Chain.NoSignBefore])

end UnitCalc
