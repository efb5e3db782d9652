import Mathlib
import UnitCalc.Answer
import UnitCalc.Proofs.Results

/-!
# Units and magnitudes

The value of an expression is made of two parts that never look at each other. Its *kind*, that is
the unit and the mark of a ratio, comes from the kinds of the leaves and decides whether there is a
value at all; its *magnitude* comes from the magnitudes of the leaves by plain arithmetic.

* `Operator.apply_eq`: an operator works on the two parts separately.
* `Expr.eval_eq`: so does the evaluation of an expression, by induction.
* `Expr.SameUnits`: expressions that differ only in their numbers. They have the same kind
  (`Expr.SameUnits.kind_eq`), and node for node the same faults.
* `findSome?_ownFault?`: the fault of an expression is that of its first node that fails.
-/

namespace UnitCalc

/-! ## Kinds -/

/-- The unit of a quantity, and whether it is a ratio. -/
abbrev Kind := Option CssUnit × Bool

namespace Quantity

def kind (q : Quantity) : Kind := (q.unit, q.ratio)

/-- The quantity of the given magnitude and kind. -/
def ofKind (magnitude : Float) (kind : Kind) : Quantity := ⟨magnitude, kind.1, kind.2⟩

end Quantity

namespace Operator

/-- What the operator does to magnitudes. -/
def compute : Operator → Float → Float → Float
  | add => (· + ·)
  | subtract => (· - ·)
  | multiply => (· * ·)
  | divide => (· / ·)
  | power => Float.pow

/-- What the operator does to units. -/
def kind (op : Operator) (a b : Option CssUnit) : Except Fault Kind :=
  match op with
  | add => if a = b then .ok (a, false) else .error (.unitMismatch "add" a b)
  | subtract => if a = b then .ok (a, false) else .error (.unitMismatch "subtract" a b)
  | multiply =>
    match a, b with
    | some _, some _ => .error (.multiplyUnits a b)
    | some unit, none | none, some unit => .ok (some unit, false)
    | none, none => .ok (none, false)
  | divide =>
    match b with
    | none => .ok (a, false)
    | some _ => if a = b then .ok (none, true) else .error (.divideUnits a b)
  | power =>
    match a, b with
    | none, none => .ok (none, false)
    | _, _ => .error .powerUnits

/-- The kinds decide whether there is a value, and the magnitudes which. -/
theorem apply_eq (op : Operator) (a b : Quantity) :
    op.apply a b =
      (op.kind a.unit b.unit).map (Quantity.ofKind (op.compute a.magnitude b.magnitude)) := by
  obtain ⟨x, u, _⟩ := a
  obtain ⟨y, w, _⟩ := b
  -- both sides ask the same question about the units
  cases op with
  | add =>
    simp only [apply, Quantity.add, kind]
    split <;> rfl
  | subtract =>
    simp only [apply, Quantity.sub, kind]
    split <;> rfl
  | multiply => cases u <;> cases w <;> rfl
  | divide =>
    cases w with
    | none => rfl
    | some w =>
      simp only [apply, Quantity.div, kind]
      split <;> rfl
  | power => cases u <;> cases w <;> rfl

/-- Without units every operator has a value. -/
theorem kind_none (op : Operator) : op.kind none none = .ok (none, false) := by
  cases op <;> rfl

end Operator

/-! ## The two parts of an evaluation -/

namespace Identifier

/-- The magnitude of a name on its own. That of a function does not matter. -/
def magnitude (id : Identifier) : Float :=
  match id.binding with
  | .constant value => value
  | .function _ => 0

/-- The magnitude of a name applied to an argument. That of a constant does not matter. -/
def compute (id : Identifier) (argument : Float) : Float :=
  match id.binding with
  | .constant _ => 0
  | .function f => f.apply argument

/-- The kind of a name on its own. -/
def kind (id : Identifier) : Except Fault Kind :=
  match id.binding with
  | .constant _ => .ok (none, false)
  | .function _ => .error (.functionNotCalled id.name)

/-- The kind of a name applied to an argument with the given unit. -/
def argumentKind (id : Identifier) (unit : Option CssUnit) : Except Fault Kind :=
  match id.binding with
  | .constant _ => .error (.notAFunction id.name)
  | .function f => .ok (if f.keepsUnit then unit else none, false)

theorem value_eq (id : Identifier) : id.value = id.kind.map (Quantity.ofKind id.magnitude) := by
  obtain ⟨name, binding⟩ := id
  cases binding <;> rfl

theorem apply_eq (id : Identifier) (argument : Quantity) :
    id.apply argument =
      (id.argumentKind argument.unit).map (Quantity.ofKind (id.compute argument.magnitude)) := by
  obtain ⟨name, binding⟩ := id
  cases binding <;> rfl

end Identifier

namespace Expr

/-- The magnitude of an expression, by arithmetic that knows no units. -/
def magnitude : Expr → Float
  | literal value => value.magnitude
  | identifier id => id.magnitude
  | binary op left right => op.compute left.magnitude right.magnitude
  | call callee argument => callee.compute argument.magnitude
  | negate operand => -operand.magnitude

/-- The kind of an expression, by rules that know no numbers. -/
def kind : Expr → Except Fault Kind
  | literal value => .ok value.kind
  | identifier id => id.kind
  | binary op left right => do
    let a ← left.kind
    let b ← right.kind
    op.kind a.1 b.1
  | call callee argument => do
    let a ← argument.kind
    callee.argumentKind a.1
  | negate operand => do
    let a ← operand.kind
    return (a.1, false)

/-- The two parts of a value are found separately. -/
theorem eval_eq (e : Expr) : e.eval = e.kind.map (Quantity.ofKind e.magnitude) := by
  induction e with
  | literal value => rfl
  | identifier id => exact id.value_eq
  -- the left side fails first, on both sides of the equation
  | binary op left right ihl ihr =>
    rw [eval, ihl, ihr, kind]
    cases left.kind with
    | error fault => rfl
    | ok a =>
      cases right.kind with
      | error fault => rfl
      | ok b => exact op.apply_eq _ _
  | call callee argument ih =>
    rw [eval, ih, kind]
    cases argument.kind with
    | error fault => rfl
    | ok a => exact callee.apply_eq _
  | negate operand ih =>
    rw [eval, ih, kind]
    cases operand.kind <;> rfl

end Expr

/-! ## Expressions that differ in their numbers -/

/-- The same name, for a constant or for a function that does the same to units. -/
inductive Identifier.SameUnits : Identifier → Identifier → Prop where
  | constant (name : String) (x y : Float) :
      SameUnits ⟨name, .constant x⟩ ⟨name, .constant y⟩
  | function (name : String) {f g : UnaryFunction} (h : f.keepsUnit = g.keepsUnit) :
      SameUnits ⟨name, .function f⟩ ⟨name, .function g⟩

/-- The same expression, except for the magnitudes of its literals, the values of its constants and
what its functions compute. -/
inductive Expr.SameUnits : Expr → Expr → Prop where
  | literal (x y : Float) (unit : Option CssUnit) (ratio : Bool) :
      SameUnits (.literal ⟨x, unit, ratio⟩) (.literal ⟨y, unit, ratio⟩)
  | identifier {id id' : Identifier} (h : id.SameUnits id') :
      SameUnits (.identifier id) (.identifier id')
  | binary (op : Operator) {left left' right right' : Expr} (hleft : SameUnits left left')
      (hright : SameUnits right right') :
      SameUnits (.binary op left right) (.binary op left' right')
  | call {callee callee' : Identifier} (hcallee : callee.SameUnits callee')
      {argument argument' : Expr} (hargument : SameUnits argument argument') :
      SameUnits (.call callee argument) (.call callee' argument')
  | negate {operand operand' : Expr} (h : SameUnits operand operand') :
      SameUnits (.negate operand) (.negate operand')

/-- Names that differ in numbers have the same kind on their own. -/
theorem Identifier.SameUnits.kind_eq {id id' : Identifier} (h : id.SameUnits id') :
    id.kind = id'.kind := by
  cases h <;> rfl

/-- Names that differ in numbers have the same kind when they are applied to the same unit. -/
theorem Identifier.SameUnits.argumentKind_eq {id id' : Identifier} (h : id.SameUnits id')
    (unit : Option CssUnit) : id.argumentKind unit = id'.argumentKind unit := by
  cases h with
  | constant => rfl
  | function name hkeeps => simp only [argumentKind, hkeeps]

/-- Expressions that differ in their numbers have the same kind, or the same fault. -/
theorem Expr.SameUnits.kind_eq {e e' : Expr} (h : e.SameUnits e') : e.kind = e'.kind := by
  induction h with
  | literal => rfl
  | identifier h => exact h.kind_eq
  | binary op _ _ ihl ihr => rw [kind, kind, ihl, ihr]
  | call hcallee _ ih =>
    rw [kind, kind, ih]
    simp only [hcallee.argumentKind_eq]
  | negate _ ih => rw [kind, kind, ih]

/-! ## The first fault -/

namespace Expr

/-- The nodes of an expression, each one behind its operands and the left operand first. -/
def postorder : Expr → List Expr
  | literal value => [literal value]
  | identifier id => [identifier id]
  | binary op left right => left.postorder ++ (right.postorder ++ [binary op left right])
  | call callee argument => argument.postorder ++ [call callee argument]
  | negate operand => operand.postorder ++ [negate operand]

section Nodes

variable {op : Operator} {callee : Identifier} {left right operand : Expr} {P : Expr → Prop}

/-- The nodes of an operation are those of its sides and itself. -/
theorem exists_mem_postorder_binary :
    (∃ n ∈ (binary op left right).postorder, P n) ↔
      (∃ n ∈ left.postorder, P n) ∨ P (binary op left right) ∨ ∃ n ∈ right.postorder, P n := by
  simp only [postorder, List.mem_append, List.mem_singleton, or_and_right, exists_or,
    exists_eq_left]
  exact or_congr_right or_comm

theorem exists_mem_postorder_call :
    (∃ n ∈ (call callee operand).postorder, P n) ↔
      (∃ n ∈ operand.postorder, P n) ∨ P (call callee operand) := by
  simp only [postorder, List.mem_append, List.mem_singleton, or_and_right, exists_or,
    exists_eq_left]

theorem exists_mem_postorder_negate :
    (∃ n ∈ (negate operand).postorder, P n) ↔
      (∃ n ∈ operand.postorder, P n) ∨ P (negate operand) := by
  simp only [postorder, List.mem_append, List.mem_singleton, or_and_right, exists_or,
    exists_eq_left]

end Nodes

/-- The fault of a node whose operands have values. -/
def ownFault? : Expr → Option Fault
  | literal _ => none
  | identifier id => fault? id.value
  | binary op left right =>
    match left.eval, right.eval with
    | .ok a, .ok b => fault? (op.apply a b)
    | _, _ => none
  | call callee argument =>
    match argument.eval with
    | .ok a => fault? (callee.apply a)
    | .error _ => none
  | negate _ => none

/-- The first node that fails decides. -/
theorem findSome?_ownFault? (e : Expr) : e.postorder.findSome? ownFault? = fault? e.eval := by
  induction e with
  | literal value => rfl
  | identifier id =>
    show [identifier id].findSome? ownFault? = fault? id.value
    rw [List.findSome?_singleton]
    rfl
  | binary op left right ihl ihr =>
    rw [postorder, List.findSome?_append, List.findSome?_append, List.findSome?_singleton, ihl, ihr,
      ownFault?, eval]
    -- a fault on the left side is found first; without one the right side is searched, and then the
    -- node
    cases left.eval with
    | error fault => rfl
    | ok a => cases right.eval <;> rfl
  | call callee argument ih =>
    rw [postorder, List.findSome?_append, List.findSome?_singleton, ih, ownFault?, eval]
    cases argument.eval <;> rfl
  | negate operand ih =>
    rw [postorder, List.findSome?_append, List.findSome?_singleton, ih, eval]
    cases operand.eval <;> rfl

/-- Whether a node fails, and how, does not depend on numbers. -/
theorem SameUnits.ownFault?_eq {e e' : Expr} (h : e.SameUnits e') : e.ownFault? = e'.ownFault? := by
  -- literals and negations have no fault of their own
  cases h with
  | literal | negate => rfl
  | identifier h =>
    rw [ownFault?, ownFault?, Identifier.value_eq, Identifier.value_eq, fault?_map, fault?_map,
      h.kind_eq]
  | @binary op left left' right right' hleft hright =>
    rw [ownFault?, ownFault?, left.eval_eq, left'.eval_eq, right.eval_eq, right'.eval_eq,
      hleft.kind_eq, hright.kind_eq]
    cases left'.kind with
    | error fault => rfl
    | ok a =>
      cases right'.kind with
      | error fault => rfl
      | ok b =>
        show fault? (op.apply _ _) = fault? (op.apply _ _)
        rw [op.apply_eq, op.apply_eq, fault?_map, fault?_map]
        rfl
  | @call callee callee' hcallee argument argument' hargument =>
    rw [ownFault?, ownFault?, argument.eval_eq, argument'.eval_eq, hargument.kind_eq]
    cases argument'.kind with
    | error fault => rfl
    | ok a =>
      show fault? (callee.apply _) = fault? (callee'.apply _)
      rw [callee.apply_eq, callee'.apply_eq, fault?_map, fault?_map, hcallee.argumentKind_eq]
      rfl

/-- The nodes of two such expressions fail one by one in the same way. -/
theorem SameUnits.map_ownFault?_eq {e e' : Expr} (h : e.SameUnits e') :
    e.postorder.map ownFault? = e'.postorder.map ownFault? := by
  -- the fault of the root; the induction brings in those of the operands
  have hroot := h.ownFault?_eq
  induction h with
  | literal | identifier => simp only [postorder, List.map_singleton, hroot]
  | binary op hleft hright ihl ihr =>
    simp only [postorder, List.map_append, List.map_singleton, hroot, ihl hleft.ownFault?_eq,
      ihr hright.ownFault?_eq]
  | call _ hargument ih =>
    simp only [postorder, List.map_append, List.map_singleton, hroot, ih hargument.ownFault?_eq]
  | negate hoperand ih =>
    simp only [postorder, List.map_append, List.map_singleton, hroot, ih hoperand.ownFault?_eq]

/-! ## Taking the units away -/

/-- The expression with the units of its literals taken away. -/
def withoutUnits : Expr → Expr
  | literal value => literal { value with unit := none }
  | identifier id => identifier id
  | binary op left right => binary op left.withoutUnits right.withoutUnits
  | call callee argument => call callee argument.withoutUnits
  | negate operand => negate operand.withoutUnits

/-- The magnitude is found without looking at units. -/
theorem magnitude_withoutUnits (e : Expr) : e.withoutUnits.magnitude = e.magnitude := by
  induction e with
  | literal | identifier => rfl
  | binary op left right ihl ihr => rw [withoutUnits, magnitude, magnitude, ihl, ihr]
  | call callee argument ih => rw [withoutUnits, magnitude, magnitude, ih]
  | negate operand ih => rw [withoutUnits, magnitude, magnitude, ih]

/-- Where there were no faults with units, there are none without. -/
theorem kind_withoutUnits {e : Expr} {k : Kind} (h : e.kind = .ok k) :
    ∃ ratio, e.withoutUnits.kind = .ok (none, ratio) := by
  -- no unit is ever made from none, so every node has the same operands to fail on, and none do
  induction e generalizing k with
  | literal value => exact ⟨value.ratio, rfl⟩
  | identifier id =>
    obtain ⟨name, binding⟩ := id
    cases binding with
    | constant value => exact ⟨false, rfl⟩
    | function f => cases h
  | binary op left right ihl ihr =>
    obtain ⟨a, hleft, h⟩ := exists_of_bind_eq_ok h
    obtain ⟨b, hright, -⟩ := exists_of_bind_eq_ok h
    obtain ⟨_, hl⟩ := ihl hleft
    obtain ⟨_, hr⟩ := ihr hright
    refine ⟨false, ?_⟩
    rw [withoutUnits, kind, hl, hr]
    exact op.kind_none
  | call callee argument ih =>
    obtain ⟨a, hargument, h⟩ := exists_of_bind_eq_ok h
    obtain ⟨_, ha⟩ := ih hargument
    obtain ⟨name, binding⟩ := callee
    cases binding with
    | constant value => cases h
    | function f =>
      refine ⟨false, ?_⟩
      rw [withoutUnits, kind, ha]
      show Except.ok (if f.keepsUnit then none else none, false) = _
      rw [ite_self]
  | negate operand ih =>
    obtain ⟨a, hoperand, -⟩ := exists_of_bind_eq_ok h
    obtain ⟨_, ho⟩ := ih hoperand
    refine ⟨false, ?_⟩
    rw [withoutUnits, kind, ho]
    rfl

end Expr

/-! ## The two parts do not meet -/

/-- Units and magnitudes do not influence each other. An expression that differs only in its numbers
fails at the same nodes, and with the fault of the first one, or has a value of the same unit; and
the magnitude of a value is found without its units as well. -/
theorem eval_unitsApart (e : Expr) :
    (∀ e', e.SameUnits e' →
      e.postorder.map Expr.ownFault? = e'.postorder.map Expr.ownFault? ∧
        ((∃ fault, e.postorder.findSome? Expr.ownFault? = some fault ∧ e.eval = .error fault ∧
            e'.eval = .error fault) ∨
          ∃ v v', e.eval = .ok v ∧ e'.eval = .ok v' ∧ v.unit = v'.unit ∧ v.ratio = v'.ratio)) ∧
      ∀ v, e.eval = .ok v →
        ∃ v', e.withoutUnits.eval = .ok v' ∧ v'.magnitude.toBits = v.magnitude.toBits := by
  refine ⟨fun e' h => ⟨h.map_ownFault?_eq, ?_⟩, fun v hv => ?_⟩
  · rw [e.findSome?_ownFault?, e.eval_eq, e'.eval_eq, ← h.kind_eq]
    -- the kinds are equal, so both have the same fault or both have values
    cases e.kind with
    | error fault => exact .inl ⟨fault, rfl, rfl, rfl⟩
    | ok k => exact .inr ⟨_, _, rfl, rfl, rfl, rfl⟩
  · rw [e.eval_eq] at hv
    obtain ⟨k, hkind, rfl⟩ := exists_of_map_eq_ok hv
    obtain ⟨ratio, hwithout⟩ := Expr.kind_withoutUnits hkind
    refine ⟨Quantity.ofKind e.withoutUnits.magnitude (none, ratio), ?_, ?_⟩
    · rw [e.withoutUnits.eval_eq, hwithout]
      rfl
    · rw [e.magnitude_withoutUnits]
      rfl

/-- Also a number that is none keeps its bits, and infinity is as good as any other number. -/
theorem eval_unitsApart_nan :
    let zero : Expr := .literal ⟨0, some .px, false⟩
    let infinite : Expr := .literal ⟨Binary64.toFloat Binary64.infinity, some .px, false⟩
    (∃ v v', (Expr.binary .divide zero zero).eval = .ok v ∧
      (Expr.binary .divide zero infinite).eval = .ok v' ∧ v.unit = v'.unit ∧ v.ratio = v'.ratio) ∧
      ∃ v', (Expr.binary .divide zero zero).withoutUnits.eval = .ok v' ∧
        v'.magnitude.toBits = ((0 : Float) / 0).toBits := by
  intro zero infinite
  have hsame : (Expr.binary .divide zero zero).SameUnits (.binary .divide zero infinite) :=
    .binary .divide (.literal ..) (.literal ..)
  have hvalue : (Expr.binary .divide zero zero).eval = .ok ⟨0 / 0, none, true⟩ := rfl
  obtain ⟨hunits, hmagnitude⟩ := eval_unitsApart (.binary .divide zero zero)
  refine ⟨?_, hmagnitude _ hvalue⟩
  rcases (hunits _ hsame).2 with ⟨fault, -, hfault, -⟩ | hvalues
  · rw [hvalue] at hfault
    cases hfault
  · exact hvalues

end UnitCalc
