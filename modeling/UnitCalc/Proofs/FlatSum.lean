import Mathlib
import UnitCalc.Proofs.MinusSign
import UnitCalc.Proofs.Units

/-!
# Sums and differences without parentheses

A flat sum is a literal, and then plus and minus signs each with a literal behind it. It is read and
evaluated from the left to the right, so every stage is a fold over the summands: the tokens, the
tree, and the value.

* `FlatSum.reaches`: the reading of a flat sum. Each summand puts one more level on top of the tree,
  so a limit on nesting is kept exactly by the sums with no more literals than that.
* `eval_foldl`: the value of the tree. It is the sum of the magnitudes as long as the units agree;
  the first unit that differs is a fault.
-/

namespace UnitCalc

/-! ## Flat sums and their answers -/

/-- A number as it is written. -/
structure WrittenNumber where
  text : List Char
  value : Quantity
  literal : Literal text value

/-- The signs that join the literals of a flat sum. -/
inductive Sign where
  | plus | minus

namespace Sign

def op : Sign → Operator
  | plus => .add
  | minus => .subtract

/-- What a fault calls the operation. -/
def verb : Sign → String
  | plus => "add"
  | minus => "subtract"

end Sign

/-- A literal with its sign. -/
structure Summand where
  sign : Sign
  number : WrittenNumber

namespace Summand

/-- The sign stands between blanks. -/
def text (t : Summand) : List Char := ' ' :: t.sign.op.symbol :: ' ' :: t.number.text

def tokens (t : Summand) : List Token := [.operator t.sign.op, .number t.number.value]

def unit (t : Summand) : Option CssUnit := t.number.value.unit

/-- The tree of a sum with the summand behind it. -/
def onto (left : Expr) (t : Summand) : Expr := .binary t.sign.op left (.literal t.number.value)

/-- The magnitude of a sum with the summand behind it. -/
def compute (x : Float) (t : Summand) : Float :=
  t.sign.op.compute x t.number.value.magnitude

end Summand

/-- A literal, and the summands behind it in the order in which they are written. -/
structure FlatSum where
  first : WrittenNumber
  rest : List Summand

namespace FlatSum

def text (s : FlatSum) : String := String.ofList (s.first.text ++ s.rest.flatMap Summand.text)

/-- The number of literals. -/
def length (s : FlatSum) : Nat := s.rest.length + 1

def tokens (s : FlatSum) : List Token := .number s.first.value :: s.rest.flatMap Summand.tokens

/-- The sums group to the left. -/
def tree (s : FlatSum) : Expr := s.rest.foldl Summand.onto (.literal s.first.value)

/-- The unit of the whole, if it has a value. -/
def unit (s : FlatSum) : Option CssUnit := s.first.value.unit

/-- The magnitudes, added and subtracted from the left to the right. -/
def total (s : FlatSum) : Float := s.rest.foldl Summand.compute s.first.value.magnitude

/-- The first summand with another unit than the first literal. -/
def stranger? (s : FlatSum) : Option Summand := s.rest.find? fun t => s.unit ≠ t.unit

end FlatSum

/-! ## Tokens -/

/-- Every summand is cut off at the blank in front of its sign. -/
theorem tokensOf_summands (x : WrittenNumber) (rest : List Summand) :
    tokensOf (x.text ++ rest.flatMap Summand.text) =
      .ok (.number x.value :: rest.flatMap Summand.tokens) := by
  -- the literal in front of the rest changes from step to step
  induction rest generalizing x with
  | nil =>
    rw [List.flatMap_nil, List.append_nil]
    exact tokensOf_literal x.literal
  | cons t rest ih =>
    have htext : x.text ++ (t :: rest).flatMap Summand.text =
        x.text ++ ' ' :: t.sign.op.symbol :: ' ' ::
          (t.number.text ++ rest.flatMap Summand.text) := by
      rw [List.flatMap_cons]
      rfl
    rw [htext]
    exact tokensOf_operator t.sign.op (tokensOf_literal x.literal) (ih t.number)

/-- The sum as a chain of numbers, none of them with a sign of its own. -/
def FlatSum.chain (s : FlatSum) : Chain :=
  ⟨s.first.value, s.rest.map fun t => ⟨t.sign.op, false, t.number.value⟩⟩

theorem FlatSum.tokens_chain (s : FlatSum) : s.chain.tokens = s.tokens := by
  rw [chain, Chain.tokens, jointTokens, List.flatMap_map]
  rfl

/-- A flat sum passes the first two stages. It has no sign that would be one too many. -/
theorem FlatSum.admitted (s : FlatSum) : Admitted s.text.toList s.tokens where
  tokens := by
    rw [text, String.toList_ofList]
    exact tokensOf_summands s.first s.rest
  arranged := by
    rw [← s.tokens_chain]
    refine Chain.arranged fun j hj hsigned => ?_
    obtain ⟨t, -, rfl⟩ := List.mem_map.1 hj
    exact absurd hsigned (by simp)

/-! ## The tree -/

/-- A summand is one level high, so only the left side counts. -/
theorem height_onto (left : Expr) (t : Summand) :
    (Summand.onto left t).height = left.height + 1 := by
  have := left.one_le_height
  rw [Summand.onto, Expr.height, Expr.height]
  omega

/-- Each summand puts one level on top. -/
theorem height_foldl (left : Expr) (rest : List Summand) :
    (rest.foldl Summand.onto left).height = left.height + rest.length := by
  induction rest generalizing left with
  | nil => rfl
  | cons t rest ih =>
    rw [List.foldl_cons, ih, height_onto, List.length_cons]
    omega

theorem FlatSum.height_tree (s : FlatSum) : s.tree.height = s.length := by
  rw [tree, height_foldl, Expr.height, length, Nat.add_comm]

namespace Grammar

variable {scope : Scope} {limit depth : Nat}

/-- A literal is the right side of a plus or minus sign, whatever sign comes next. -/
theorem reaches_summand {t : Summand} {rest : List Summand} (hdepth : depth + 1 ≤ limit) :
    Reaches ⟨scope, some limit⟩ (.expression depth t.sign.op.rightPower)
      (.number t.number.value :: rest.flatMap Summand.tokens) (rest.flatMap Summand.tokens)
      (.literal t.number.value) := by
  refine .expression hdepth (.number _ _) (.stop ?_)
  have hpower (sign : Sign) : sign.op.bindingPower = 20 ∧ sign.op.rightPower = 20 := by
    cases sign <;> exact ⟨rfl, rfl⟩
  rw [(hpower t.sign).2]
  -- what comes next is the end or a sign, and a sign does not bind more strongly than this one
  cases rest with
  | nil => decide
  | cons u rest => exact (hpower u.sign).1.le

/-- The extension takes in one summand after the other. -/
theorem reaches_summands {left : Expr} {rest : List Summand}
    (hheight : left.height + rest.length ≤ limit) :
    Reaches ⟨scope, some limit⟩ (.extend 1 0 left left.height) (rest.flatMap Summand.tokens) []
      (rest.foldl Summand.onto left) := by
  induction rest generalizing left with
  | nil => exact .stop (Nat.le_refl 0)
  | cons t rest ih =>
    have hone := left.one_le_height
    rw [List.length_cons] at hheight
    have hnext : (Summand.onto left t).height + rest.length ≤ limit := by
      rw [height_onto]
      omega
    exact .link (bindingPower_pos t.sign.op) (Nat.le_of_add_right_le hnext)
      (reaches_summand (by omega)) (ih hnext)

end Grammar

namespace FlatSum

theorem reaches (s : FlatSum) (scope : Scope) {limit : Nat} (hlength : s.length ≤ limit) :
    Grammar.Reaches ⟨scope, some limit⟩ (.expression 0 0) s.tokens [] s.tree := by
  have hone : 0 + 1 ≤ limit := Nat.le_trans (Nat.le_add_left 1 _) hlength
  refine .expression hone (.number _ _) (Grammar.reaches_summands ?_)
  rw [Expr.height, Nat.add_comm]
  exact hlength

/-- A sum with more literals than levels of nesting is nested too deeply: without a limit it is read
as its tree, and the tree is too high. -/
theorem ofText_eq_nestingTooDeep (s : FlatSum) (scope : Scope) (hlength : nestingLimit < s.length) :
    Expr.ofText scope s.text = .error .nestingTooDeep := by
  obtain ⟨lexemes, hlexemes, htext⟩ := ofText_eq_parse scope s.admitted
  -- a limit of its own length is enough for the sum, so the grammar gives it its tree
  have hrun := s.reaches scope (Nat.le_refl _)
  rw [← hlexemes] at hrun
  have hparse : Grammar.parse ⟨scope, some s.length⟩ s.text lexemes = .ok s.tree :=
    Grammar.parse_of_reaches hrun
  have hderives := Grammar.derives_of_parse hparse
  rw [hlexemes] at hderives
  rcases ofText_of_denotes ⟨_, s.admitted, hderives⟩ with hok | hdeep
  · rw [htext] at hok
    have hheight := Grammar.height_le_of_parse hok
    rw [s.height_tree] at hheight
    exact absurd hheight (Nat.not_le_of_lt hlength)
  · exact hdeep

theorem ofText_eq_tree (s : FlatSum) (scope : Scope) (hlength : s.length ≤ nestingLimit) :
    Expr.ofText scope s.text = .ok s.tree :=
  ofText_of_admitted s.admitted (s.reaches scope hlength)

end FlatSum

/-! ## The value -/

variable {left : Expr} {x : Float} {unit : Option CssUnit}

/-- One summand: a value of the same unit is added or subtracted, one of another unit is a fault. -/
theorem eval_onto (hleft : left.eval = .ok ⟨x, unit, false⟩) (t : Summand) :
    (Summand.onto left t).eval =
      if unit = t.unit then .ok ⟨Summand.compute x t, unit, false⟩
      else .error (.unitMismatch t.sign.verb unit t.unit) := by
  rw [Summand.onto, Expr.eval, hleft]
  obtain ⟨sign, number⟩ := t
  cases sign <;> rfl

/-- What is added to a fault does not matter. -/
theorem eval_foldl_error {fault : Fault} (hleft : left.eval = .error fault)
    (rest : List Summand) : (rest.foldl Summand.onto left).eval = .error fault := by
  induction rest generalizing left with
  | nil => exact hleft
  | cons t rest ih =>
    apply ih
    rw [Summand.onto, Expr.eval, hleft]
    rfl

/-- Many summands: the first one whose unit differs from the one in front decides, and without one
the magnitudes are folded. The unit of the left side never changes, so all are compared with the
same one. -/
theorem eval_foldl (hleft : left.eval = .ok ⟨x, unit, false⟩) (rest : List Summand) :
    (rest.foldl Summand.onto left).eval =
      match rest.find? fun t => unit ≠ t.unit with
      | some t => .error (.unitMismatch t.sign.verb unit t.unit)
      | none => .ok ⟨rest.foldl Summand.compute x, unit, false⟩ := by
  induction rest generalizing left x with
  | nil => exact hleft
  | cons t rest ih =>
    have hsum := eval_onto hleft t
    rw [List.foldl_cons, List.find?_cons]
    -- a summand of the same unit leaves a value to go on with, a stranger a fault that stays
    by_cases hunit : unit = t.unit
    · rw [if_pos hunit] at hsum
      simp only [ne_eq, hunit, not_true_eq_false, decide_false]
      rw [hunit] at ih hsum
      exact ih hsum
    · rw [if_neg hunit] at hsum
      simp only [ne_eq, hunit, not_false_eq_true, decide_true]
      -- the rest of the summands is not looked at any more
      exact eval_foldl_error hsum rest

/-- The value of the tree of a flat sum. -/
theorem FlatSum.eval_tree (s : FlatSum) :
    s.tree.eval =
      match s.stranger? with
      | some t => .error (.unitMismatch t.sign.verb s.unit t.unit)
      | none => .ok ⟨s.total, s.unit, false⟩ := by
  have hfirst : (Expr.literal s.first.value).eval =
      .ok ⟨s.first.value.magnitude, s.unit, false⟩ := by
    rw [← s.first.literal.ratio_eq_false]
    rfl
  exact eval_foldl hfirst s.rest

/-- The answer to a flat sum of literals, under any scope. More than 256 literals are nested too
deeply, whatever their units are. Otherwise the first unit that is not the one in front is a fault,
and without one the magnitudes are added and subtracted from the left to the right. -/
theorem evaluate_flatSum (scope : Scope) (s : FlatSum) :
    evaluate scope s.text =
      if 256 < s.length then .error .nestingTooDeep
      else
        match s.stranger? with
        | some t => .error (.unitMismatch t.sign.verb s.unit t.unit)
        | none =>
          match s.unit with
          | none => .ok (.number s.total)
          | some unit => .ok (.text (numberText s.total ++ unit.suffix)) := by
  rw [evaluate]
  -- the length decides before any unit is looked at
  by_cases hlength : 256 < s.length
  · rw [s.ofText_eq_nestingTooDeep scope hlength, if_pos hlength]
    rfl
  · rw [s.ofText_eq_tree scope (Nat.le_of_not_lt hlength), if_neg hlength]
    simp only [bind, Except.bind, s.eval_tree]
    cases s.stranger? with
    | some t => rfl
    | none =>
      cases s.unit with
      | none => rfl
      | some unit => rfl

end UnitCalc
