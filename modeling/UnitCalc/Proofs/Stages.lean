import Mathlib
import UnitCalc.Answer
import UnitCalc.Proofs.Lexeme.MaximalMunch
import UnitCalc.Proofs.Lexeme.Parentheses
import UnitCalc.Proofs.Parse.Failure
import UnitCalc.Proofs.Parse.Recognition
import UnitCalc.Proofs.Units

/-!
# Where a fault comes from

An evaluation goes through four stages: the text is cut into lexemes, their arrangement is checked,
a tree is read from them, and the tree is given a value. The first stage that fails decides, and no
two stages can fail in the same way, so the fault alone tells the stage.

* `FailsAt`: a stage finds a fault, and the stages before it find none.
* `stage_of_tokenize`, `stage_of_checkArrangement`, `stage_of_parse`, `stage_of_eval`: the faults of
  each stage. The last of them needs a tree that calls nothing but functions, and the trees that are
  read are of this sort (`callsFunctions_of_parse`).
* `evaluate_fault`: a fault belongs to the stage that its sort names.
-/

namespace UnitCalc

/-! ## Stages -/

/-- The stages of an evaluation, in the order in which they are gone through. -/
inductive Stage where
  | lexemes | arrangement | tree | value
  deriving DecidableEq

/-- The stage that finds faults of this sort. -/
def Fault.stage : Fault → Stage
  | malformedNumber _ | unexpectedCharacter _ => .lexemes
  | adjacentNumbers | doubleMinus | consecutiveOperators | unmatchedOpening | unmatchedClosing =>
    .arrangement
  | unexpectedToken _ | nestingTooDeep | unknownIdentifier .. | notInvocable | notAFunction _ =>
    .tree
  | unitMismatch .. | multiplyUnits .. | divideUnits .. | powerUnits | functionNotCalled _ => .value

/-- The faults of the kind `lex` are those of the first stage. -/
theorem Fault.kind_eq_lex_iff (fault : Fault) : fault.kind = .lex ↔ fault.stage = .lexemes := by
  cases fault <;> simp [kind, stage]

/-- The faults of the kind `structural` are those of the second stage. -/
theorem Fault.kind_eq_structural_iff (fault : Fault) :
    fault.kind = .structural ↔ fault.stage = .arrangement := by
  cases fault <;> simp [kind, stage]

/-- The stages in front of this one succeed, and this one finds the fault. -/
inductive FailsAt (scope : Scope) (text : String) : Stage → Fault → Prop where
  | lexemes {fault : Fault} (h : tokenize text = .error fault) : FailsAt scope text .lexemes fault
  | arrangement {lexemes : List Lexeme} {fault : Fault} (htext : tokenize text = .ok lexemes)
      (h : checkArrangement lexemes = .error fault) : FailsAt scope text .arrangement fault
  | tree {lexemes : List Lexeme} {fault : Fault} (htext : tokenize text = .ok lexemes)
      (hcheck : checkArrangement lexemes = .ok ⟨⟩)
      (h : Grammar.parse ⟨scope, some nestingLimit⟩ text lexemes = .error fault) :
      FailsAt scope text .tree fault
  | value {lexemes : List Lexeme} {e : Expr} {fault : Fault} (htext : tokenize text = .ok lexemes)
      (hcheck : checkArrangement lexemes = .ok ⟨⟩)
      (hparse : Grammar.parse ⟨scope, some nestingLimit⟩ text lexemes = .ok e)
      (h : e.eval = .error fault) : FailsAt scope text .value fault

/-- A fault of the whole is one of the stages. -/
theorem exists_failsAt {scope : Scope} {text : String} {fault : Fault}
    (h : evaluate scope text = .error fault) : ∃ stage, FailsAt scope text stage fault := by
  -- the stages are steps one behind the other, so each one is asked whether it fails
  rcases bind_eq_error.1 h with hread | ⟨e, hread, hvalue⟩
  · rcases bind_eq_error.1 hread with htext | ⟨lexemes, htext, hrest⟩
    · exact ⟨_, .lexemes htext⟩
    · rcases bind_eq_error.1 hrest with hcheck | ⟨⟨⟩, hcheck, hparse⟩
      · exact ⟨_, .arrangement htext hcheck⟩
      · exact ⟨_, .tree htext hcheck hparse⟩
  · obtain ⟨lexemes, htext, hrest⟩ := exists_of_bind_eq_ok hread
    obtain ⟨⟨⟩, hcheck, hparse⟩ := exists_of_bind_eq_ok hrest
    rcases bind_eq_error.1 hvalue with heval | ⟨q, -, hanswer⟩
    · exact ⟨_, .value htext hcheck hparse heval⟩
    · exact absurd hanswer (by simp [pure, Except.pure])

/-! ## Lexemes and their arrangement -/

/-- Cutting fails at a malformed number or at a character that begins no word. -/
theorem stage_of_tokenize {text : String} {fault : Fault} (h : tokenize text = .error fault) :
    fault.stage = .lexemes := by
  have hrun := maximalMunch_run text
  rw [h] at hrun
  obtain ⟨lexemes, before, c, rest, -, -, -, hno⟩ := hrun
  cases hno with
  | unexpectedCharacter => rfl
  | malformedNumber => rfl

theorem stage_of_operatorPairFault? {a b : Token} {fault : Fault}
    (h : operatorPairFault? a b = some fault) : fault.stage = .arrangement := by
  unfold operatorPairFault? at h
  split at h
  · cases h
    rfl
  · exact absurd h (by simp)
  · cases h
    rfl
  · exact absurd h (by simp)

/-- The check of the operators finds faults of the second stage only. -/
theorem stage_of_operatorFault? {w : List Token} {fault : Fault}
    (h : operatorFault? w = some fault) : fault.stage = .arrangement := by
  induction w with
  | nil => exact absurd h (by simp [operatorFault?])
  | cons a w ih =>
    cases w with
    | nil => exact absurd h (by simp [operatorFault?])
    | cons b w =>
      rw [operatorFault?] at h
      split at h
      · rename_i hpair
        cases h
        exact stage_of_operatorPairFault? hpair
      · exact ih h

theorem stage_of_parenthesisFault? {opened : Nat} {w : List Token} {fault : Fault}
    (h : parenthesisFault? opened w = some fault) : fault.stage = .arrangement := by
  fun_induction parenthesisFault? opened w with
  | case1 => exact absurd h (by simp)
  | case2 =>
    cases h
    rfl
  | case3 opened rest ih => exact ih h
  | case4 =>
    cases h
    rfl
  | case5 opened rest hopened ih => exact ih h
  | case6 opened t rest hopen hclose ih => exact ih h

/-- The faults of the second stage. -/
theorem stage_of_checkArrangement {lexemes : List Lexeme} {fault : Fault}
    (h : checkArrangement lexemes = .error fault) : fault.stage = .arrangement := by
  unfold checkArrangement at h
  split at h
  · exact absurd h (by simp)
  · rename_i hfault
    cases h
    -- the three checks in their order
    unfold arrangementFault? at hfault
    split at hfault
    · cases hfault
      rfl
    · rcases Option.or_eq_some_iff.1 hfault with hoperator | ⟨-, hparenthesis⟩
      · exact stage_of_operatorFault? hoperator
      · exact stage_of_parenthesisFault? hparenthesis

/-! ## Trees -/

namespace Grammar

variable {g : Grammar}

/-- The faults that a run of the parser can find. -/
theorem stage_of_fails {a : Call} {fault : Fault} {d : Cursor} (hrun : Fails g a fault d) :
    fault.stage = .tree := by
  induction hrun with
  | depth | minusHeight | rightHeight | argumentHeight => rfl
  | unexpected | groupEnd | argumentEnd => rfl
  | unknown => rfl
  | notInvocable | constant => rfl
  -- all other calls hand on what a call of theirs has found
  | operand _ _ ih | extend _ _ _ ih | plus _ _ ih | minus _ _ ih | group _ _ ih => exact ih
  | attach _ _ _ ih | again _ _ _ _ ih | right _ ih | argument _ _ ih => exact ih

/-- The faults of the third stage. What is left over behind an expression is one of them. -/
theorem stage_of_parse {source : String} {lexemes : List Lexeme} {fault : Fault}
    (h : g.parse source lexemes = .error fault) : fault.stage = .tree := by
  rcases parse_eq_error.1 h with ⟨d, hrun⟩ | ⟨e, height, d, -, -, rfl⟩
  · exact stage_of_fails hrun
  · rfl

end Grammar

namespace Expr

/-- Everything that is called in the expression is a function. -/
def CallsFunctions (e : Expr) : Prop :=
  ∀ callee argument, .call callee argument ∈ e.postorder → ∃ f, callee.binding = .function f

/-- An operation calls what its sides call. -/
theorem callsFunctions_binary {op : Operator} {left right : Expr} :
    (binary op left right).CallsFunctions ↔ left.CallsFunctions ∧ right.CallsFunctions := by
  simp only [CallsFunctions, postorder, List.mem_append, List.mem_singleton, reduceCtorEq, or_false,
    or_imp, forall_and]

theorem callsFunctions_negate {operand : Expr} :
    (negate operand).CallsFunctions ↔ operand.CallsFunctions := by
  simp only [CallsFunctions, postorder, List.mem_append, List.mem_singleton, reduceCtorEq, or_false]

/-- A call adds its own callee to what the argument calls. -/
theorem callsFunctions_call {callee : Identifier} {argument : Expr} :
    (call callee argument).CallsFunctions ↔
      argument.CallsFunctions ∧ ∃ f, callee.binding = .function f := by
  simp only [CallsFunctions, postorder, List.mem_append, List.mem_singleton, call.injEq, or_imp,
    forall_and, and_imp, forall_eq_apply_imp_iff, forall_eq]

end Expr

/-- The grammar has a callee only where a name means a function, so every tree it gives calls
nothing else. -/
theorem callsFunctions_of_derives {scope : Scope} {s : Nonterminal} {w : List Token} {e : Expr}
    (h : Derives scope s w e) : e.CallsFunctions := by
  induction h with
  | sum_term _ ih | term_product _ ih | term_tail _ ih | tail_plus _ ih => exact ih
  | product_power _ ih | power_atom _ ih | atom_group _ ih | callee_group _ _ ih => exact ih
  | sum_add _ _ _ ihl ihr | term_multiply _ _ _ ihl ihr | product_multiply _ _ _ ihl ihr
  | tail_power _ _ ihl ihr | power_power _ _ ihl ihr =>
    exact Expr.callsFunctions_binary.2 ⟨ihl, ihr⟩
  | tail_minus _ ih => exact Expr.callsFunctions_negate.2 ih
  | atom_number | atom_name | callee_name => simp [Expr.CallsFunctions, Expr.postorder]
  -- the one rule that makes a call
  | atom_call hcallee _ _ ih => exact Expr.callsFunctions_call.2 ⟨ih, hcallee.callee_function⟩

theorem callsFunctions_of_parse {g : Grammar} {source : String} {lexemes : List Lexeme} {e : Expr}
    (h : g.parse source lexemes = .ok e) : e.CallsFunctions :=
  callsFunctions_of_derives (Grammar.derives_of_parse h)

/-! ## Values -/

/-- The faults that the units of an operation can have. -/
theorem stage_of_kind {op : Operator} {a b : Option CssUnit} {fault : Fault}
    (h : op.kind a b = .error fault) : fault.stage = .value := by
  cases op with
  | add | subtract =>
    rw [Operator.kind] at h
    split at h
    · exact absurd h (by simp)
    · cases h
      rfl
  | multiply =>
    cases a with
    | none => cases b <;> exact absurd h (by simp [Operator.kind])
    | some =>
      cases b with
      | none => exact absurd h (by simp [Operator.kind])
      | some =>
        cases h
        rfl
  | divide =>
    cases b with
    | none => exact absurd h (by simp [Operator.kind])
    | some =>
      rw [Operator.kind] at h
      split at h
      · exact absurd h (by simp)
      · cases h
        rfl
  | power =>
    unfold Operator.kind at h
    dsimp only at h
    split at h
    · exact absurd h (by simp)
    · cases h
      rfl

/-- An operation fails only because of its units. -/
theorem stage_of_apply {op : Operator} {a b : Quantity} {fault : Fault}
    (h : op.apply a b = .error fault) : fault.stage = .value := by
  rw [op.apply_eq] at h
  cases hkind : op.kind a.unit b.unit with
  | ok kind =>
    rw [hkind] at h
    exact absurd h (by simp [Except.map])
  | error f =>
    rw [hkind] at h
    cases h
    exact stage_of_kind hkind

/-- The faults of the fourth stage, for a tree that calls nothing but functions. Without this a call
of a constant would be a fault of the third. -/
theorem stage_of_eval {e : Expr} {fault : Fault} (hcalls : e.CallsFunctions)
    (h : e.eval = .error fault) : fault.stage = .value := by
  induction e generalizing fault with
  | literal value => exact absurd h (by simp [Expr.eval])
  | identifier id =>
    rw [Expr.eval, Identifier.value] at h
    split at h
    · exact absurd h (by simp)
    · cases h
      rfl
  | binary op left right ihl ihr =>
    obtain ⟨hleft, hright⟩ := Expr.callsFunctions_binary.1 hcalls
    rw [Expr.eval] at h
    -- the left side, the right side, or the operation itself
    rcases bind_eq_error.1 h with hl | ⟨a, -, h⟩
    · exact ihl hleft hl
    · rcases bind_eq_error.1 h with hr | ⟨b, -, happly⟩
      · exact ihr hright hr
      · exact stage_of_apply happly
  | call callee argument ih =>
    obtain ⟨hargument, f, hfun⟩ := Expr.callsFunctions_call.1 hcalls
    rw [Expr.eval] at h
    rcases bind_eq_error.1 h with ha | ⟨a, -, happly⟩
    · exact ih hargument ha
    · -- a function has a value everywhere
      rw [Identifier.apply, hfun] at happly
      exact absurd happly (by simp)
  | negate operand ih =>
    rw [Expr.eval] at h
    rcases bind_eq_error.1 h with ho | ⟨a, -, hneg⟩
    · exact ih (Expr.callsFunctions_negate.1 hcalls) ho
    · exact absurd hneg (by simp [pure, Except.pure])

/-! ## Evaluations -/

/-- The stage that finds a fault is the one that its sort names. -/
theorem failsAt_stage {scope : Scope} {text : String} {fault : Fault}
    (h : evaluate scope text = .error fault) : FailsAt scope text fault.stage fault := by
  obtain ⟨stage, hfails⟩ := exists_failsAt h
  -- some stage fails; that it is this one follows from the faults that each stage can have
  have hstage : fault.stage = stage := by
    cases hfails with
    | lexemes h => exact stage_of_tokenize h
    | arrangement _ h => exact stage_of_checkArrangement h
    | tree _ _ h => exact Grammar.stage_of_parse h
    | value _ _ hparse h => exact stage_of_eval (callsFunctions_of_parse hparse) h
  rw [hstage]
  exact hfails

/-- A fault of an evaluation is found by the stage that its sort names, and the stages before it
find none. So its kind tells a text that has no lexemes, and one whose lexemes are badly arranged,
from all others. In a tree that is read from lexemes nothing is called but functions, so that
calling something else is never a fault of its value. -/
theorem evaluate_fault (scope : Scope) (text : String) :
    (∀ fault, evaluate scope text = .error fault →
      FailsAt scope text fault.stage fault ∧
        (fault.kind = .lex ↔ ∃ f, tokenize text = .error f) ∧
        (fault.kind = .structural ↔
          ∃ lexemes, tokenize text = .ok lexemes ∧ ∃ f, checkArrangement lexemes = .error f)) ∧
      ∀ source lexemes e, Grammar.parse ⟨scope, some nestingLimit⟩ source lexemes = .ok e →
        e.CallsFunctions ∧ ∀ name, e.eval ≠ .error (.notAFunction name) := by
  refine ⟨fun fault hfault => ?_, fun source lexemes e hparse => ?_⟩
  · have hfails := failsAt_stage hfault
    rw [fault.kind_eq_lex_iff, fault.kind_eq_structural_iff]
    generalize fault.stage = stage at hfails ⊢
    refine ⟨hfails, ?_⟩
    -- each stage but the first has lexemes, and each but the first two has them well arranged
    cases hfails with
    | lexemes htext => simp [htext]
    | arrangement htext hcheck => simp [htext, hcheck]
    | tree htext hcheck => simp [htext, hcheck]
    | value htext hcheck => simp [htext, hcheck]
  · have hcalls := callsFunctions_of_parse hparse
    exact ⟨hcalls, fun name heval => absurd (stage_of_eval hcalls heval) (by simp [Fault.stage])⟩

/-- The name of a function alone is read, and its evaluation is what fails. -/
theorem evaluate_fault_functionNotCalled :
    let scope : Scope := fun name => if name = "f" then some (.function ⟨id, false⟩) else none
    let f : Expr := .identifier ⟨"f", .function ⟨id, false⟩⟩
    let lexemes : List Lexeme := [⟨.name "f", "f", 0, 1, ⟨1, 1⟩⟩]
    evaluate scope "f" = .error (.functionNotCalled "f") ∧
      FailsAt scope "f" .value (.functionNotCalled "f") ∧
      (¬ ∃ fault, tokenize "f" = .error fault) ∧
      Grammar.parse ⟨scope, some nestingLimit⟩ "f" lexemes = .ok f ∧
      f.CallsFunctions ∧ ∀ name, f.eval ≠ .error (.notAFunction name) := by
  intro scope f lexemes
  have hevaluate : evaluate scope "f" = .error (.functionNotCalled "f") := by cbv
  have hparse : Grammar.parse ⟨scope, some nestingLimit⟩ "f" lexemes = .ok f := by cbv
  obtain ⟨hfaults, htrees⟩ := evaluate_fault scope "f"
  obtain ⟨hfails, hlex, -⟩ := hfaults _ hevaluate
  exact ⟨hevaluate, hfails, mt hlex.2 (by decide), hparse, htrees _ _ _ hparse⟩

end UnitCalc
