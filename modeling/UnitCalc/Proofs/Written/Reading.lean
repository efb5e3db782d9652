import Mathlib
import UnitCalc.Proofs.Parse.Reaching
import UnitCalc.Proofs.Parse.Recognition
import UnitCalc.Proofs.Written.Tokens

/-!
# What a written expression is read as

In the written form a negation has no parentheses of its own. Behind its operand there may stand an
operator that binds more tightly than the sign does; then the sign takes all of the operation. So an
expression is read again as `Expr.asRead`, in which such a negation has changed places with the
operation around it.

* `asRead_eq_self_iff`: nothing is changed if and only if there is no such negation.
* `Grammar.readsTokens`: the written tokens are read in this way, whatever stands behind them, as
  long as no two minus signs are side by side. Every level of an expression takes up to three levels
  of nesting and up to two levels of the tree that is read.
* `ofText_text`: so it can be told from the nodes of an expression what becomes of its written form.
-/

namespace UnitCalc

namespace Expr

/-- Whether somewhere a negation is the left side of an operator that binds more tightly than a
sign. -/
def losesMinus : Expr → Bool
  | literal _ | identifier _ => false
  | binary op left right =>
    left.losesMinus || (left.isNegation && signPower < op.bindingPower) || right.losesMinus
  | call _ argument => argument.losesMinus
  | negate operand => operand.losesMinus

/-- The expression that the written form is read as. -/
def asRead : Expr → Expr
  | literal value => .literal value
  | identifier id => .identifier id
  | binary op (negate operand) right =>
    if signPower < op.bindingPower then .negate (.binary op operand.asRead right.asRead)
    else .binary op (.negate operand.asRead) right.asRead
  | binary op left right => .binary op left.asRead right.asRead
  | call callee argument => .call callee argument.asRead
  | negate operand => .negate operand.asRead

/-- An expression is read as itself exactly if no operation is taken by a sign on its left. -/
theorem asRead_eq_self_iff (e : Expr) : e.asRead = e ↔ e.losesMinus = false := by
  -- the cases are those of the definition: only the third one changes anything
  fun_induction asRead e with
  | case1 => simp [losesMinus]
  | case2 => simp [losesMinus]
  | case3 op operand right hpow => simp [losesMinus, isNegation, hpow]
  | case4 op operand right hpow ihoperand ihright =>
    simp [losesMinus, isNegation, hpow, ihoperand, ihright]
  | case5 op left right hleft ihleft ihright =>
    have hno : left.isNegation = false := by
      rw [Bool.eq_false_iff, ne_eq, isNegation_iff]
      rintro ⟨operand, rfl⟩
      exact hleft operand rfl
    simp [losesMinus, hno, ihleft, ihright]
  | case6 callee argument ih => simp [losesMinus, ih]
  | case7 operand ih => simp [losesMinus, ih]

/-- A sign that changes places with the operation around it adds a level above everything else. -/
theorem height_asRead_lt (e : Expr) : e.asRead.height < 2 * e.height := by
  fun_induction asRead e with
  | case1 => simp [height]
  | case2 => simp [height]
  | case3 | case4 | case5 | case6 | case7 =>
    simp only [height]
    omega

end Expr

theorem Readable.sides {scope : Scope} {op : Operator} {left right : Expr}
    (h : Readable scope (.binary op left right)) : Readable scope left ∧ Readable scope right := by
  cases h with
  | binary hleft hright => exact ⟨hleft, hright⟩

theorem Readable.operand {scope : Scope} {operand : Expr} (h : Readable scope (.negate operand)) :
    Readable scope operand := by
  cases h with
  | negate hoperand => exact hoperand

namespace Grammar

/-! ## One lemma for each form

An expression that stands in front of the tokens of `e` goes on behind them, with the tree that they
are read as; unless `e` is a negation and there is something behind it that the sign takes as well.
That the reading goes on is needed for the left side of an operation, which is followed by the
operator. -/

/-- In front of the tokens of the expression, an expression goes on behind them with what they are
read as. -/
def ReadsTokens (scope : Scope) (limit : Nat) (e : Expr) : Prop :=
  ∀ {depth minPower : Nat} {v u : List Token} {f : Expr}, depth + 3 * e.height ≤ limit →
    minPower ≤ 39 → (e.isNegation = true → headPower v ≤ signPower) →
      Reaches ⟨scope, some limit⟩ (.extend (depth + 1) minPower e.asRead e.asRead.height) v u f →
        Reaches ⟨scope, some limit⟩ (.expression depth minPower) (e.tokens ++ v) u f

/-- There is room for the tree that is read. -/
theorem height_asRead_le {limit depth : Nat} {e : Expr} (hdepth : depth + 3 * e.height ≤ limit) :
    e.asRead.height ≤ limit := by
  have := e.height_asRead_lt
  omega

namespace ReadsTokens

variable {scope : Scope} {limit : Nat} {op : Operator} {e left right operand argument : Expr}

/-- Up to something that ends every expression. -/
theorem whole (h : ReadsTokens scope limit e) {depth minPower : Nat} {v : List Token}
    (hdepth : depth + 3 * e.height ≤ limit) (hpow : minPower ≤ 39) (hnext : headPower v = 0) :
    Reaches ⟨scope, some limit⟩ (.expression depth minPower) (e.tokens ++ v) v e.asRead :=
  h hdepth hpow (fun _ => hnext ▸ Nat.zero_le _) (.stop (hnext ▸ Nat.zero_le _))

theorem literal (value : Quantity) : ReadsTokens scope limit (.literal value) := by
  intro depth minPower v u f hdepth _ _ hext
  have hone := (Expr.literal value).one_le_height
  exact .expression (by omega) (.number value v) hext

theorem identifier {id : Identifier} (h : id.Known scope) :
    ReadsTokens scope limit (.identifier id) := by
  intro depth minPower v u f hdepth _ _ hext
  have hone := (Expr.identifier id).one_le_height
  exact .expression (by omega) (.name h.binding v) hext

/-- The argument is read up to the parenthesis that ends it. -/
theorem call {callee : Identifier} {function : UnaryFunction} (h : callee.Known scope)
    (hfun : callee.binding = .function function) (hargument : ReadsTokens scope limit argument) :
    ReadsTokens scope limit (.call callee argument) := by
  intro depth minPower v u f hdepth hpow _ hext
  have hheight : (Expr.call callee argument).height = argument.height + 1 := rfl
  have htokens : (Expr.call callee argument).tokens ++ v =
      .name callee.name :: .openParen :: (argument.tokens ++ .closeParen :: v) := by
    simp [Expr.tokens]
  -- the closing parenthesis ends every expression, so all of the argument is read and nothing else
  have hinside : Reaches ⟨scope, some limit⟩ (.expression (depth + 1) 0)
      (argument.tokens ++ .closeParen :: v) (.closeParen :: v) argument.asRead :=
    hargument.whole (by omega) (Nat.zero_le _) rfl
  rw [htokens]
  exact .expression (by omega) (.name h.binding _)
    (.argument hfun (Nat.lt_of_le_of_lt hpow (by decide)) (height_asRead_le hdepth) hinside hext)

/-- The sign takes its operand, and nothing that stands behind is taken as well. -/
theorem negate (hno : operand.isNegation = false) (hoperand : ReadsTokens scope limit operand) :
    ReadsTokens scope limit (.negate operand) := by
  intro depth minPower v u f hdepth _ hnext hext
  have hheight : (Expr.negate operand).height = operand.height + 1 := rfl
  have hinside : Reaches ⟨scope, some limit⟩ (.expression (depth + 1) signPower)
      (operand.tokens ++ v) v operand.asRead :=
    hoperand (by omega) (by decide) (by simp [hno]) (.stop (hnext rfl))
  exact .expression (by omega) (.minus (height_asRead_le hdepth) hinside) hext

/-- The operation stands in parentheses, so nothing behind it matters. -/
theorem grouped (htokens : ∀ depth v, depth + 3 * (Expr.binary op left right).height ≤ limit + 1 →
      Reaches ⟨scope, some limit⟩ (.expression depth 0)
        (left.tokens ++ .operator op :: (right.tokens ++ .closeParen :: v)) (.closeParen :: v)
        (Expr.binary op left right).asRead) :
    ReadsTokens scope limit (.binary op left right) := by
  intro depth minPower v u f hdepth _ _ hext
  have hone := left.one_le_height
  have hheight : (Expr.binary op left right).height = max left.height right.height + 1 := rfl
  have hsplit : (Expr.binary op left right).tokens ++ v =
      .openParen :: (left.tokens ++ .operator op :: (right.tokens ++ .closeParen :: v)) := by
    simp [Expr.tokens]
  rw [hsplit]
  exact .expression (by omega) (.group (htokens (depth + 1) v (by omega))) hext

/-- The left side is no negation, or the sign in front of it stops at the operator. -/
theorem binary (hread : (Expr.binary op left right).asRead = .binary op left.asRead right.asRead)
    (hfree : left.isNegation = true → op.bindingPower ≤ signPower)
    (hleft : ReadsTokens scope limit left) (hright : ReadsTokens scope limit right) :
    ReadsTokens scope limit (.binary op left right) := by
  refine grouped fun depth v hdepth => ?_
  have hheight : (Expr.binary op left right).height = max left.height right.height + 1 := rfl
  have hlow := (Expr.binary op left right).height_asRead_lt
  rw [hread] at hlow ⊢
  -- the right side stops at the parenthesis; what the left side goes on with is the operator
  have hinside : Reaches ⟨scope, some limit⟩ (.expression (depth + 1) op.rightPower)
      (right.tokens ++ .closeParen :: v) (.closeParen :: v) right.asRead :=
    hright.whole (by omega) (rightPower_le op) rfl
  exact hleft (by omega) (Nat.zero_le _) hfree
    (.link (bindingPower_pos op) (by omega) hinside (.stop (Nat.zero_le _)))

/-- The left side is a negation, and the sign takes the whole operation. -/
theorem binary_negate (hpow : signPower < op.bindingPower) (hno : operand.isNegation = false)
    (hoperand : ReadsTokens scope limit operand) (hright : ReadsTokens scope limit right) :
    ReadsTokens scope limit (.binary op (.negate operand) right) := by
  refine grouped fun depth v hdepth => ?_
  have hheight : (Expr.binary op (.negate operand) right).height =
      max (operand.height + 1) right.height + 1 := rfl
  have hlow := (Expr.binary op (.negate operand) right).height_asRead_lt
  have hread : (Expr.binary op (.negate operand) right).asRead =
      .negate (.binary op operand.asRead right.asRead) := by
    rw [Expr.asRead, if_pos hpow]
  have hreadHeight : (Expr.negate (.binary op operand.asRead right.asRead)).height =
      (Expr.binary op operand.asRead right.asRead).height + 1 := rfl
  rw [hread] at hlow ⊢
  have hinside : Reaches ⟨scope, some limit⟩ (.expression (depth + 2) op.rightPower)
      (right.tokens ++ .closeParen :: v) (.closeParen :: v) right.asRead :=
    hright.whole (by omega) (rightPower_le op) rfl
  -- the sign reads an expression that begins with its operand, and the operator goes on with it
  have hsigned : Reaches ⟨scope, some limit⟩ (.expression (depth + 1) signPower)
      (operand.tokens ++ .operator op :: (right.tokens ++ .closeParen :: v)) (.closeParen :: v)
      (.binary op operand.asRead right.asRead) :=
    hoperand (by omega) (by decide) (by simp [hno])
      (.link hpow (by omega) hinside (.stop (Nat.zero_le _)))
  exact .expression (by omega) (.minus (by omega) hsigned) (.stop (Nat.zero_le _))

end ReadsTokens

/-- The cases are those of `Expr.asRead`: the operand of a sign that takes the operation around it
is read by itself. -/
theorem readsTokens {scope : Scope} {limit : Nat} {e : Expr} (hreadable : Readable scope e)
    (hminus : e.doublesMinus = false) : ReadsTokens scope limit e := by
  fun_induction Expr.asRead e with
  | case1 value => exact ReadsTokens.literal value
  | case2 id =>
    cases hreadable with
    | identifier h => exact ReadsTokens.identifier h
  | case3 op operand right hpow ihoperand ihright =>
    obtain ⟨hoperand, hright⟩ := hreadable.sides
    simp only [Expr.doublesMinus, Bool.or_eq_false_iff] at hminus
    obtain ⟨⟨⟨hno, hoperandMinus⟩, -⟩, hrightMinus⟩ := hminus
    exact ReadsTokens.binary_negate hpow hno (ihoperand hoperand.operand hoperandMinus)
      (ihright hright hrightMinus)
  | case4 op operand right hpow ihoperand ihright =>
    obtain ⟨hoperand, hright⟩ := hreadable.sides
    simp only [Expr.doublesMinus, Bool.or_eq_false_iff] at hminus
    obtain ⟨⟨⟨hno, hoperandMinus⟩, -⟩, hrightMinus⟩ := hminus
    refine ReadsTokens.binary ?_ (fun _ => Nat.le_of_not_lt hpow)
      (ReadsTokens.negate hno (ihoperand hoperand.operand hoperandMinus))
      (ihright hright hrightMinus)
    rw [Expr.asRead, if_neg hpow, Expr.asRead]
  | case5 op left right hno ihleft ihright =>
    obtain ⟨hleft, hright⟩ := hreadable.sides
    simp only [Expr.doublesMinus, Bool.or_eq_false_iff] at hminus
    obtain ⟨⟨hleftMinus, -⟩, hrightMinus⟩ := hminus
    refine ReadsTokens.binary ?_ (fun hnegation => ?_) (ihleft hleft hleftMinus)
      (ihright hright hrightMinus)
    · rw [Expr.asRead]
      exact hno
    · obtain ⟨operand, hoperand⟩ := Expr.isNegation_iff.1 hnegation
      exact absurd hoperand (hno operand)
  | case6 callee argument ih =>
    cases hreadable with
    | call h hfun hargument => exact ReadsTokens.call h hfun (ih hargument hminus)
  | case7 operand ih =>
    obtain ⟨hno, hoperand⟩ := Bool.or_eq_false_iff.1 hminus
    exact ReadsTokens.negate hno (ih hreadable.operand hoperand)

end Grammar

/-! ## Nodes

Where a tree has the one and the other, said of its nodes. -/

namespace Expr

/-- Two minus signs are written side by side: that of the root, and that of an operand. -/
inductive MeetsMinus : Expr → Prop where
  | negate (operand : Expr) : MeetsMinus (negate (negate operand))
  | subtract (left operand : Expr) : MeetsMinus (binary .subtract left (negate operand))

/-- The operation at the root is taken by the sign of its left side. -/
inductive YieldsToMinus : Expr → Prop where
  | binary {op : Operator} (hop : op ∈ [Operator.multiply, .divide, .power])
      (operand right : Expr) : YieldsToMinus (binary op (negate operand) right)

section Nodes

variable {op : Operator} {left right operand : Expr}

/-- At an operation two minus signs meet if it is a difference with a negation on the right. -/
theorem meetsMinus_binary :
    (binary op left right).MeetsMinus ↔ (op = .subtract && right.isNegation) = true := by
  rw [Bool.and_eq_true, decide_eq_true_eq, isNegation_iff]
  constructor
  · rintro ⟨⟩
    exact ⟨rfl, _, rfl⟩
  · rintro ⟨rfl, operand, rfl⟩
    exact .subtract left operand

theorem meetsMinus_negate : (negate operand).MeetsMinus ↔ operand.isNegation = true := by
  rw [isNegation_iff]
  constructor
  · rintro ⟨⟩
    exact ⟨_, rfl⟩
  · rintro ⟨operand, rfl⟩
    exact .negate operand

/-- An operation is taken by a sign if it binds more tightly than the sign and has a negation on the
left. -/
theorem yieldsToMinus_binary :
    (binary op left right).YieldsToMinus ↔
      (left.isNegation && signPower < op.bindingPower) = true := by
  have htight : op ∈ [Operator.multiply, .divide, .power] ↔ signPower < op.bindingPower := by
    cases op <;> decide
  rw [Bool.and_eq_true, decide_eq_true_eq, isNegation_iff, ← htight]
  constructor
  · rintro ⟨hop⟩
    exact ⟨⟨_, rfl⟩, hop⟩
  · rintro ⟨⟨operand, rfl⟩, hop⟩
    exact .binary hop operand right

end Nodes

/-- Two minus signs are written side by side exactly if they meet at some node. -/
theorem doublesMinus_iff (e : Expr) :
    e.doublesMinus = true ↔ ∃ n ∈ e.postorder, n.MeetsMinus := by
  induction e with
  | literal | identifier =>
    simp only [doublesMinus, postorder, List.mem_singleton, exists_eq_left, Bool.false_eq_true,
      false_iff]
    rintro ⟨⟩
  | binary op left right ihl ihr =>
    rw [exists_mem_postorder_binary, meetsMinus_binary, doublesMinus, Bool.or_eq_true,
      Bool.or_eq_true, ihl, ihr, or_assoc]
  | call callee argument ih =>
    have hroot : ¬ (call callee argument).MeetsMinus := by
      rintro ⟨⟩
    rw [exists_mem_postorder_call, or_iff_left hroot, doublesMinus, ih]
  | negate operand ih =>
    rw [exists_mem_postorder_negate, meetsMinus_negate, doublesMinus, Bool.or_eq_true, ih, or_comm]

/-- A sign takes an operation exactly if that happens at some node. -/
theorem losesMinus_iff (e : Expr) :
    e.losesMinus = true ↔ ∃ n ∈ e.postorder, n.YieldsToMinus := by
  induction e with
  | literal | identifier =>
    simp only [losesMinus, postorder, List.mem_singleton, exists_eq_left, Bool.false_eq_true,
      false_iff]
    rintro ⟨⟩
  | binary op left right ihl ihr =>
    rw [exists_mem_postorder_binary, yieldsToMinus_binary, losesMinus, Bool.or_eq_true,
      Bool.or_eq_true, ihl, ihr, or_assoc]
  | call callee argument ih =>
    have hroot : ¬ (call callee argument).YieldsToMinus := by
      rintro ⟨⟩
    rw [exists_mem_postorder_call, or_iff_left hroot, losesMinus, ih]
  | negate operand ih =>
    have hroot : ¬ (negate operand).YieldsToMinus := by
      rintro ⟨⟩
    rw [exists_mem_postorder_negate, or_iff_left hroot, losesMinus, ih]

end Expr

/-! ## The text, read again -/

section Text

variable {scope : Scope} {e : Expr}

/-- Two minus signs side by side are rejected. -/
theorem ofText_text_of_doublesMinus (htokens : tokensOf e.text.toList = .ok e.tokens)
    (hminus : e.doublesMinus = true) : Expr.ofText scope e.text = .error .doubleMinus := by
  rw [← tokenize_tokens] at htokens
  obtain ⟨lexemes, htokenize, hlexemes⟩ := exists_of_map_eq_ok htokens
  have hcheck : checkArrangement lexemes = .error .doubleMinus := by
    rw [checkArrangement, hlexemes, e.arrangementFault?_tokens, if_pos hminus]
  rw [Expr.ofText, htokenize]
  simp only [bind, Except.bind, hcheck]

/-- Without two minus signs side by side the written form is read as foreseen, up to the height for
which there is room. -/
theorem ofText_text_asRead (hreadable : Readable scope e)
    (htokens : tokensOf e.text.toList = .ok e.tokens) (hminus : e.doublesMinus = false)
    (hheight : e.height ≤ 85) : Expr.ofText scope e.text = .ok e.asRead := by
  have harranged : Arranged e.tokens := by
    rw [Arranged, e.arrangementFault?_tokens, hminus, if_neg (by simp)]
  -- three levels of nesting for each level of the tree
  have hlimit : 0 + 3 * e.height ≤ nestingLimit := by
    rw [nestingLimit]
    omega
  have hreads : Grammar.ReadsTokens scope nestingLimit e := Grammar.readsTokens hreadable hminus
  have hrun : Grammar.Reaches ⟨scope, some nestingLimit⟩ (.expression 0 0) (e.tokens ++ []) []
      e.asRead :=
    Grammar.ReadsTokens.whole hreads hlimit (Nat.zero_le 39) rfl
  rw [List.append_nil] at hrun
  exact ofText_of_admitted ⟨htokens, harranged⟩ hrun

end Text

/-- An expression that was read from a text, with finite numbers and of a height up to 85, is read
again from its written form if and only if two things occur at none of its nodes: a minus sign
behind a minus sign, and a sign that takes more than its operand. Where the first occurs, the
written form is rejected; where only the second occurs, it is read as another expression. -/
theorem ofText_text {scope : Scope} {source : String} {e : Expr}
    (h : Expr.ofText scope source = .ok e)
    (hfinite : ∀ value, .literal value ∈ e.postorder → value.magnitude.isFinite = true)
    (hheight : e.height ≤ 85) :
    let doubled := ∃ n ∈ e.postorder, n.MeetsMinus
    let taken := ∃ n ∈ e.postorder, n.YieldsToMinus
    (Expr.ofText scope e.text = .ok e ↔ ¬ doubled ∧ ¬ taken) ∧
      (doubled → Expr.ofText scope e.text = .error .doubleMinus) ∧
        (¬ doubled → taken → ∃ e', e' ≠ e ∧ Expr.ofText scope e.text = .ok e') := by
  intro doubled taken
  have hreadable := readable_of_ofText h
  have htokens := tokensOf_text hreadable hfinite
  have hdoubled : e.doublesMinus = true ↔ doubled := e.doublesMinus_iff
  have htaken : e.losesMinus = true ↔ taken := e.losesMinus_iff
  have hsame : e.asRead = e ↔ ¬ taken := by
    rw [e.asRead_eq_self_iff, Bool.eq_false_iff, ne_eq, htaken]
  -- two signs side by side are found before anything is read
  by_cases hminus : e.doublesMinus = true
  · have hfault : Expr.ofText scope e.text = .error .doubleMinus :=
      ofText_text_of_doublesMinus htokens hminus
    refine ⟨⟨fun hok => ?_, fun hnone => absurd (hdoubled.1 hminus) hnone.1⟩, fun _ => hfault,
      fun hno => absurd (hdoubled.1 hminus) hno⟩
    rw [hfault] at hok
    exact absurd hok (by simp)
  · have hnone : ¬ doubled := mt hdoubled.2 hminus
    have hread := ofText_text_asRead hreadable htokens (Bool.eq_false_iff.2 hminus) hheight
    refine ⟨⟨fun hok => ⟨hnone, hsame.1 ?_⟩, fun hboth => ?_⟩, fun hsome => absurd hsome hnone,
      fun _ hsome => ⟨e.asRead, fun heq => hsame.1 heq hsome, hread⟩⟩
    · rw [hread] at hok
      exact Except.ok.inj hok
    · rw [hread, hsame.2 hboth.2]

/-- A sign that takes the multiplication behind its operand. -/
theorem ofText_text_multiply :
    let scope : Scope := fun name => if name = "x" then some (.constant 2) else none
    let x : Expr := .identifier ⟨"x", .constant 2⟩
    let zero : Expr := .literal ⟨Binary64.toFloat 0, none, false⟩
    let e : Expr := .binary .multiply (.negate x) zero
    Expr.ofText scope "(-x) * 0" = .ok e ∧
      ∃ e', e' ≠ e ∧ Expr.ofText scope "(-x * 0)" = .ok e' := by
  intro scope x zero e
  have hread : Expr.ofText scope "(-x) * 0" = .ok e := by cbv
  have htext : e.text = "(-x * 0)" := by cbv
  have hfinite : ∀ value, .literal value ∈ e.postorder → value.magnitude.isFinite = true := by
    intro value hvalue
    have hzero : value = ⟨Binary64.toFloat 0, none, false⟩ := by
      simpa [e, x, zero, Expr.postorder] using hvalue
    rw [hzero, Binary64.isFinite_iff]
    decide
  obtain ⟨-, -, hother⟩ := ofText_text hread hfinite (by decide)
  rw [htext] at hother
  refine ⟨hread, hother ?_ ⟨e, ?_, .binary (by simp) x zero⟩⟩
  · rw [← e.doublesMinus_iff]
    decide
  · simp [e, Expr.postorder]

end UnitCalc
