import Mathlib
import UnitCalc.Fault

/-!
# Results

A result is a value or the fault for which there is none.

* `exists_of_map_eq_ok`, `exists_of_bind_eq_ok`: a success goes through a success before it.
* `bind_eq_error`: a fault is that of the first step, or one behind its success.
* `fault?`: the fault of a result, if it is one.
* `Alike`: results that differ at most in the place of an unknown name.
-/

namespace UnitCalc

variable {α β : Type}

/-! ## Successes -/

theorem exists_of_map_eq_ok {x : Except Fault α} {f : α → β} {b : β} (h : x.map f = .ok b) :
    ∃ a, x = .ok a ∧ f a = b := by
  cases x with
  | error fault => cases h
  | ok a => exact ⟨a, rfl, Except.ok.inj h⟩

/-- Two steps succeed only if the first one does, and then the second one from there. -/
theorem exists_of_bind_eq_ok {x : Except Fault α} {next : α → Except Fault β} {b : β}
    (h : x >>= next = .ok b) : ∃ a, x = .ok a ∧ next a = .ok b := by
  cases x with
  | error fault => cases h
  | ok a => exact ⟨a, rfl, h⟩

/-! ## Faults -/

/-- Two steps fail either in the first one or, when that has succeeded, in the second one. -/
theorem bind_eq_error {x : Except Fault α} {next : α → Except Fault β} {fault : Fault} :
    x >>= next = .error fault ↔ x = .error fault ∨ ∃ a, x = .ok a ∧ next a = .error fault := by
  cases x with
  | error f => simp [bind, Except.bind]
  | ok a => simp [bind, Except.bind]

/-- The fault of a result, if it is one. -/
def fault? : Except Fault α → Option Fault
  | .ok _ => none
  | .error fault => some fault

theorem fault?_map (x : Except Fault α) (f : α → β) : fault? (x.map f) = fault? x := by
  cases x <;> rfl

/-! ## Results up to a place -/

/-- The same fault, except that an unknown name may stand at another place. -/
inductive Fault.Alike : Fault → Fault → Prop where
  | refl (fault : Fault) : Alike fault fault
  | moved (name : String) (p q : Position) :
      Alike (.unknownIdentifier name (some p)) (.unknownIdentifier name (some q))

/-- The same result, except that an unknown name may stand at another place. -/
inductive Alike : Except Fault α → Except Fault α → Prop where
  | ok (a : α) : Alike (.ok a) (.ok a)
  | error {f g : Fault} (h : f.Alike g) : Alike (.error f) (.error g)

theorem Alike.refl (x : Except Fault α) : Alike x x := by
  cases x with
  | ok a => exact .ok a
  | error fault => exact .error (.refl fault)

/-- Going on in the same way from like results leads to like results: behind a fault there is
nothing to go on with, and like successes are equal. -/
theorem Alike.bind {x y : Except Fault α} (h : Alike x y) (next : α → Except Fault β) :
    Alike (x >>= next) (y >>= next) := by
  cases h with
  | ok a => exact .refl (next a)
  | error h => exact .error h

end UnitCalc
