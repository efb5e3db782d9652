import Mathlib
import UnitCalc.Proofs.Parse.Reaching

/-!
# Chains of numbers

A chain is a number, and then operators each with a number behind it. A minus sign may stand between
an operator and its number. The chain without its signs is read as a tree over the same numbers;
this module follows the readings of both side by side.

* `Reaches.operand`: a number of the chain is read with its sign, if it has one.
* `exists_extension`: the reading without signs, and along with it the reading with signs, as long
  as nothing that binds more tightly than a sign stands behind a number with a sign. Then every sign
  takes its number only, and the trees differ in the leaves.

Each number puts at most one expression inside another, and one level on top of the tree; a sign
adds one of each at the very end. This is what keeps a chain within a limit on nesting.
-/

namespace UnitCalc

/-- A number, and whether a minus sign stands in front of it. -/
structure Operand where
  signed : Bool
  value : Quantity

/-- An operator and what stands behind it. -/
structure Joint where
  op : Operator
  operand : Operand

/-- A number, and the operators with what stands behind them. -/
structure Chain where
  first : Quantity
  rest : List Joint

namespace Operand

def unsigned (a : Operand) : Operand := ⟨false, a.value⟩

def tokens (a : Operand) : List Token :=
  if a.signed then [.operator .subtract, .number a.value] else [.number a.value]

def expr (a : Operand) : Expr :=
  if a.signed then .negate (.literal a.value) else .literal a.value

end Operand

namespace Joint

def unsigned (j : Joint) : Joint := ⟨j.op, j.operand.unsigned⟩

def tokens (j : Joint) : List Token := .operator j.op :: j.operand.tokens

end Joint

/-- The tokens of the operators and what stands behind them. -/
def jointTokens (rest : List Joint) : List Token := rest.flatMap Joint.tokens

namespace Chain

def unsigned (chain : Chain) : Chain := ⟨chain.first, chain.rest.map Joint.unsigned⟩

def tokens (chain : Chain) : List Token := .number chain.first :: jointTokens chain.rest

/-- The number of numbers. -/
def length (chain : Chain) : Nat := chain.rest.length + 1

end Chain

/-- Which numbers have a sign in front of them, from the left to the right. -/
def marks (a : Operand) (rest : List Joint) : List Bool :=
  a.signed :: rest.map fun j => j.operand.signed

def Chain.marks (chain : Chain) : List Bool := UnitCalc.marks ⟨false, chain.first⟩ chain.rest

/-! ## Trees over a chain -/

namespace Expr

/-- How many leaves the tree has. -/
def leaves : Expr → Nat
  | literal _ | identifier _ => 1
  | binary _ left right => left.leaves + right.leaves
  | call _ argument => argument.leaves
  | negate operand => operand.leaves

/-- The tree with the marked leaves negated. The marks go from the left to the right. -/
def negateLeaves : Expr → List Bool → Expr
  | binary op left right, ms =>
    .binary op (left.negateLeaves (ms.take left.leaves)) (right.negateLeaves (ms.drop left.leaves))
  | call callee argument, ms => .call callee (argument.negateLeaves ms)
  | negate operand, ms => .negate (operand.negateLeaves ms)
  | literal value, ms => if ms.headD false then .negate (.literal value) else .literal value
  | identifier id, ms => if ms.headD false then .negate (.identifier id) else .identifier id

/-- Negating leaves makes a tree at most one level higher, since every leaf lies on its own branch.
-/
theorem height_negateLeaves_le (e : Expr) (ms : List Bool) :
    (e.negateLeaves ms).height ≤ e.height + 1 := by
  induction e generalizing ms with
  | literal | identifier =>
    rw [negateLeaves]
    split
    · exact Nat.le_refl _
    · exact Nat.le_succ _
  | binary op left right ihl ihr =>
    have hl := ihl (ms.take left.leaves)
    have hr := ihr (ms.drop left.leaves)
    rw [negateLeaves, height, height]
    omega
  | call callee argument ih =>
    have := ih ms
    rw [negateLeaves, height, height]
    omega
  | negate operand ih =>
    have := ih ms
    rw [negateLeaves, height, height]
    omega

end Expr

/-- The numbers and operators of the chain, from the left to the right, are those of the tree. -/
inductive Tree : Operand → List Joint → Expr → Prop where
  | leaf (a : Operand) : Tree a [] (.literal a.value)
  | node {a : Operand} {j : Joint} {js ks : List Joint} {left right : Expr}
      (hleft : Tree a js left) (hright : Tree j.operand ks right) :
      Tree a (js ++ j :: ks) (.binary j.op left right)

/-- The tree over a chain has one leaf for each number. -/
theorem Tree.leaves_eq {a : Operand} {js : List Joint} {e : Expr} (h : Tree a js e) :
    e.leaves = js.length + 1 := by
  induction h with
  | leaf => rfl
  | node _ _ ihl ihr =>
    rw [Expr.leaves, ihl, ihr, List.length_append, List.length_cons]
    omega

theorem negateLeaves_leaf (a : Operand) :
    (Expr.literal a.value).negateLeaves (marks a []) = a.expr := rfl

/-- The marks of a chain are split where the tree is, so both sides are negated on their own. -/
theorem Tree.negateLeaves_node {a : Operand} {j : Joint} {js ks : List Joint} {left right : Expr}
    (h : Tree a js left) :
    (Expr.binary j.op left right).negateLeaves (marks a (js ++ j :: ks)) =
      .binary j.op (left.negateLeaves (marks a js)) (right.negateLeaves (marks j.operand ks)) := by
  -- the leaves on the left are as many as the numbers in front of the operator
  have hlength : left.leaves = (marks a js).length := by
    rw [h.leaves_eq, marks, List.length_cons, List.length_map]
  have hmarks : marks a (js ++ j :: ks) = marks a js ++ marks j.operand ks := by
    simp [marks]
  rw [Expr.negateLeaves, hmarks, List.take_left' hlength.symm, List.drop_left' hlength.symm]

namespace Grammar

theorem headPower_jointTokens {rest : List Joint} {power : Nat}
    (h : ∀ j ∈ rest.head?, j.op.bindingPower ≤ power) : headPower (jointTokens rest) ≤ power := by
  cases rest with
  | nil => exact Nat.zero_le _
  | cons j rest => exact h j rfl

namespace Reaches

variable {scope : Scope} {limit depth : Nat} {v : List Token}

/-- A sign takes its number and stops there, if what follows binds no more tightly than a sign. -/
theorem operand {a : Operand} (hdepth : depth + 1 ≤ limit) (hheight : 2 ≤ limit)
    (hnext : a.signed = true → headPower v ≤ signPower) :
    Reaches ⟨scope, some limit⟩ (.operand depth) (a.tokens ++ v) v a.expr := by
  obtain ⟨signed, value⟩ := a
  cases signed with
  | false => exact number value v
  | true => exact minus hheight (expression hdepth (number value v) (stop (hnext rfl)))

end Reaches

/-! ## The two readings

An extension reads `taken` of the joints and stops in front of `after`. The tree so far is one over
`js`, and the tree in the end is one over all that was read. Nothing is said of a reading with signs
if there is something that a sign would take for its own. -/

/-- Nothing that binds more tightly than a sign stands behind a number with a sign. -/
def Apart (j k : Joint) : Prop := j.operand.signed = true → k.op.bindingPower ≤ signPower

/-- The reading of some joints behind a tree, without signs and with them. -/
structure Extension (g : Grammar) (depth minPower : Nat) (a : Operand) (js : List Joint)
    (left : Expr) (rest taken after : List Joint) (e : Expr) : Prop where
  split : rest = taken ++ after
  tree : Tree a (js ++ taken) e
  height : e.height + after.length ≤ left.height + rest.length
  stops : ∀ j ∈ after.head?, j.op.bindingPower ≤ minPower
  unsigned : Reaches g (.extend depth minPower left left.height)
    (jointTokens (rest.map Joint.unsigned)) (jointTokens (after.map Joint.unsigned)) e
  signed : rest.IsChain Apart →
    Reaches g (.extend depth minPower (left.negateLeaves (marks a js))
        (left.negateLeaves (marks a js)).height)
      (jointTokens rest) (jointTokens after) (e.negateLeaves (marks a (js ++ taken)))

namespace Extension

variable {scope : Scope} {limit depth minPower : Nat} {a : Operand} {js rest : List Joint}
  {left : Expr}

theorem stop {g : Grammar} (hleft : Tree a js left)
    (hstop : ∀ j ∈ rest.head?, j.op.bindingPower ≤ minPower) :
    Extension g depth minPower a js left rest [] rest left where
  split := rfl
  tree := by
    rw [List.append_nil]
    exact hleft
  height := Nat.le_refl _
  stops := hstop
  unsigned := by
    refine .stop (headPower_jointTokens fun k hk => ?_)
    obtain ⟨j, hj, rfl⟩ := Option.map_eq_some_iff.1 (List.head?_map ▸ hk)
    exact hstop j hj
  signed := by
    intro _
    rw [List.append_nil]
    exact .stop (headPower_jointTokens hstop)

/-- An operator is read with its right side, and the extension goes on behind that. -/
theorem link {j : Joint} {ks after₁ ls after : List Joint} {right e : Expr}
    (hpow : minPower < j.op.bindingPower) (hleft : Tree a js left)
    (hdepth : depth + rest.length + 2 ≤ limit) (hheight : left.height + rest.length + 2 ≤ limit)
    (hright : Extension ⟨scope, some limit⟩ (depth + 1) j.op.rightPower j.operand []
      (.literal j.operand.value) rest ks after₁ right)
    (hrest : Extension ⟨scope, some limit⟩ depth minPower a (js ++ j :: ks)
      (.binary j.op left right) after₁ ls after e) :
    Extension ⟨scope, some limit⟩ depth minPower a js left (j :: rest) (j :: (ks ++ ls)) after
      e := by
  have hone := left.one_le_height
  have hliteral : (Expr.literal j.operand.value).height = 1 := rfl
  have hnode : (Expr.binary j.op left right).height = max left.height right.height + 1 := rfl
  have hrightHeight := hright.height
  have hrestHeight := hrest.height
  have hlength : rest.length = ks.length + after₁.length := by
    rw [hright.split, List.length_append]
  have hfits : (Expr.binary j.op left right).height + 1 ≤ limit := by omega
  have htaken : js ++ j :: (ks ++ ls) = js ++ j :: ks ++ ls := by simp
  refine ⟨?_, ?_, ?_, hrest.stops, ?_, fun hchain => ?_⟩
  · rw [hright.split, hrest.split]
    simp
  · rw [htaken]
    exact hrest.tree
  · rw [List.length_cons]
    omega
  · -- without signs
    exact .link hpow (Nat.le_of_succ_le hfits)
      (.expression (by omega) (.number _ _) hright.unsigned) hrest.unsigned
  · -- with signs: the same, except that a sign may stand in front of the number of the joint
    obtain ⟨hhead, htail⟩ := List.isChain_cons.1 hchain
    have hafter : after₁.IsChain Apart := by
      rw [hright.split] at htail
      exact htail.right_of_append
    have hnext : j.operand.signed = true → headPower (jointTokens rest) ≤ signPower :=
      fun hsign => headPower_jointTokens fun k hk => hhead k hk hsign
    -- the signs make the node at most one level higher
    have hsignedFits := Nat.le_trans ((Expr.binary j.op left right).height_negateLeaves_le
      (marks a (js ++ j :: ks))) hfits
    have hrightRun := hright.signed htail
    have hrestRun := hrest.signed hafter
    rw [negateLeaves_leaf] at hrightRun
    rw [hleft.negateLeaves_node] at hrestRun hsignedFits
    rw [htaken]
    exact .link hpow hsignedFits
      (.expression (by omega) (.operand (by omega) (by omega) hnext) hrightRun) hrestRun

end Extension

/-- An extension reads some of the joints, and the readings with and without signs go the same way.
-/
theorem exists_extension {scope : Scope} {limit : Nat} (rest : List Joint) (depth minPower : Nat)
    {a : Operand} {js : List Joint} {left : Expr} (hleft : Tree a js left)
    (hdepth : depth + rest.length + 1 ≤ limit) (hheight : left.height + rest.length + 1 ≤ limit) :
    ∃ taken after e,
      Extension ⟨scope, some limit⟩ depth minPower a js left rest taken after e := by
  -- the induction is on the number of joints: the right side and the rest of the extension both
  -- read fewer
  induction hlen : rest.length using Nat.strongRecOn generalizing rest depth minPower a js left with
  | ind n ih =>
    cases rest with
    | nil => exact ⟨[], [], left, .stop hleft (by simp)⟩
    | cons j rest =>
      rw [List.length_cons] at hlen hdepth hheight
      by_cases hpow : j.op.bindingPower ≤ minPower
      · exact ⟨[], j :: rest, left, .stop hleft (by simpa using hpow)⟩
      · have hone := left.one_le_height
        have hliteral : (Expr.literal j.operand.value).height = 1 := rfl
        -- the right side goes on from the number behind the operator
        obtain ⟨ks, after₁, right, hright⟩ :=
          ih rest.length (by omega) rest (depth + 1) j.op.rightPower (.leaf j.operand) (by omega)
            (by omega) rfl
        have hrightHeight := hright.height
        have hlength : rest.length = ks.length + after₁.length := by
          rw [hright.split, List.length_append]
        have hnode : (Expr.binary j.op left right).height = max left.height right.height + 1 := rfl
        -- what the right side leaves is attached to the whole
        obtain ⟨ls, after, e, hrest⟩ :=
          ih after₁.length (by omega) after₁ depth minPower (.node hleft hright.tree) (by omega)
            (by omega) rfl
        exact ⟨_, after, e, .link (Nat.lt_of_not_le hpow) hleft (by omega) (by omega) hright hrest⟩

/-! ## Whole chains -/

/-- A chain is read as a tree over its numbers; and if no sign can take more than its number, the
chain with its signs is read as the same tree with those numbers negated. -/
theorem exists_readings (scope : Scope) {limit : Nat} {chain : Chain}
    (hlength : chain.length + 1 ≤ limit) :
    ∃ e, Tree ⟨false, chain.first⟩ chain.rest e ∧
      Reaches ⟨scope, some limit⟩ (.expression 0 0) chain.unsigned.tokens [] e ∧
      (chain.rest.IsChain Apart →
        Reaches ⟨scope, some limit⟩ (.expression 0 0) chain.tokens []
          (e.negateLeaves chain.marks)) := by
  rw [Chain.length] at hlength
  have hheight : (Expr.literal chain.first).height + chain.rest.length + 1 ≤ limit := by
    show 1 + chain.rest.length + 1 ≤ limit
    omega
  have hleaf : Tree ⟨false, chain.first⟩ [] (.literal chain.first) := .leaf _
  obtain ⟨taken, after, e, hext⟩ :=
    @exists_extension scope limit chain.rest 1 0 _ _ _ hleaf (by omega) hheight
  -- every operator binds more tightly than nothing, so all of the chain is read
  have hafter : after = [] := by
    cases after with
    | nil => rfl
    | cons j after => exact absurd (hext.stops j rfl) (Nat.not_le_of_lt (bindingPower_pos j.op))
  subst hafter
  have htaken : chain.rest = taken := by
    rw [hext.split, List.append_nil]
  subst htaken
  refine ⟨e, hext.tree, ?_, fun hchain => ?_⟩
  · exact .expression (by omega) (.number _ _) hext.unsigned
  · exact .expression (by omega) (.number _ _) (hext.signed hchain)

end Grammar

end UnitCalc
