import Mathlib
import UnitCalc.Proofs.Written.Tokens

/-!
# The written form is unambiguous

No two trees are written in the same way. A negation is written without parentheses, and the name of
a function in front of an argument is written like a name alone, so a tree is told from its tokens
only together with what stands behind them: as long as that is no opening parenthesis, the tokens
end where the tree does (`tokens_append_inj`).
-/

namespace UnitCalc

/-- Known names are told apart by their letters. -/
theorem Identifier.Known.eq_of_name {scope : Scope} {id id' : Identifier} (h : id.Known scope)
    (h' : id'.Known scope) (hname : id.name = id'.name) : id = id' := by
  obtain ⟨name, binding⟩ := id
  obtain ⟨name', binding'⟩ := id'
  obtain rfl : name = name' := hname
  have hbinding : some binding = some binding' := h.binding.symm.trans h'.binding
  rw [Option.some.inj hbinding]

/-- Trees with the same tokens are the same. Behind the tokens there may stand anything but an
opening parenthesis, which would make a call of a name. -/
theorem tokens_append_inj {scope : Scope} {e f : Expr} {v u : List Token} (he : Readable scope e)
    (hf : Readable scope f) (hv : v.head? ≠ some .openParen) (hu : u.head? ≠ some .openParen)
    (h : e.tokens ++ v = f.tokens ++ u) : e = f ∧ v = u := by
  -- the first token tells the form of both trees; the induction takes their parts off from the left
  induction he generalizing f v u with
  | literal =>
    cases hf with
    | literal =>
      obtain ⟨hvalue, hrest⟩ := List.cons.inj h
      exact ⟨congrArg Expr.literal (Token.number.inj hvalue), hrest⟩
    | identifier | binary | call | negate => exact absurd (List.cons.inj h).1 (by simp)
  | identifier hid =>
    cases hf with
    | identifier hid' =>
      obtain ⟨hname, hrest⟩ := List.cons.inj h
      exact ⟨congrArg Expr.identifier (hid.eq_of_name hid' (Token.name.inj hname)), hrest⟩
    | call =>
      -- the opening parenthesis of the call would stand behind the name
      have hrest : v = .openParen :: _ := (List.cons.inj h).2
      exact absurd (by rw [hrest, List.head?_cons]) hv
    | literal | binary | negate => exact absurd (List.cons.inj h).1 (by simp)
  | @binary op left right _ _ ihl ihr =>
    cases hf with
    | @binary op' left' right' hleft hright =>
      have hinside := (List.cons.inj h).2
      simp only [List.append_eq, List.append_assoc, List.cons_append] at hinside
      obtain ⟨rfl, hbehind⟩ := ihl hleft (by simp) (by simp) hinside
      obtain ⟨hop, hbehind⟩ := List.cons.inj hbehind
      obtain ⟨rfl, hend⟩ := ihr hright (by simp) (by simp) hbehind
      rw [Token.operator.inj hop]
      exact ⟨rfl, (List.cons.inj hend).2⟩
    | literal | identifier | call | negate => exact absurd (List.cons.inj h).1 (by simp)
  | @call callee function argument hid _ _ ih =>
    cases hf with
    | @call callee' function' argument' hid' _ hargument =>
      obtain ⟨hname, hbehind⟩ := List.cons.inj h
      have hinside := (List.cons.inj hbehind).2
      simp only [List.append_eq, List.append_assoc] at hinside
      obtain ⟨rfl, hend⟩ := ih hargument (by simp) (by simp) hinside
      rw [hid.eq_of_name hid' (Token.name.inj hname)]
      exact ⟨rfl, (List.cons.inj hend).2⟩
    | identifier =>
      have hrest : .openParen :: _ = u := (List.cons.inj h).2
      exact absurd (by rw [← hrest, List.head?_cons]) hu
    | literal | binary | negate => exact absurd (List.cons.inj h).1 (by simp)
  | negate _ ih =>
    cases hf with
    | negate hoperand =>
      obtain ⟨rfl, hrest⟩ := ih hoperand hv hu (List.cons.inj h).2
      exact ⟨rfl, hrest⟩
    | literal | identifier | binary | call => exact absurd (List.cons.inj h).1 (by simp)

/-- Nothing stands behind the whole, so trees with the same tokens are the same. -/
theorem eq_of_tokens_eq {scope : Scope} {e f : Expr} (he : Readable scope e)
    (hf : Readable scope f) (h : e.tokens = f.tokens) : e = f := by
  have happend : e.tokens ++ [] = f.tokens ++ [] := by rw [h]
  exact (tokens_append_inj he hf (by simp) (by simp) happend).1

/-- Two expressions that were read from texts under one scope, and whose numbers are finite, are the
same as soon as they are written in the same way. -/
theorem text_inj {scope : Scope} {s₁ s₂ : String} {e₁ e₂ : Expr}
    (h₁ : Expr.ofText scope s₁ = .ok e₁) (h₂ : Expr.ofText scope s₂ = .ok e₂)
    (hfinite₁ : ∀ value, .literal value ∈ e₁.postorder → value.magnitude.isFinite = true)
    (hfinite₂ : ∀ value, .literal value ∈ e₂.postorder → value.magnitude.isFinite = true)
    (htext : e₁.text = e₂.text) : e₁ = e₂ := by
  have hreadable₁ := readable_of_ofText h₁
  have hreadable₂ := readable_of_ofText h₂
  have htokens₁ := tokensOf_text hreadable₁ hfinite₁
  have htokens₂ := tokensOf_text hreadable₂ hfinite₂
  -- one text has one sequence of tokens
  rw [htext, htokens₂] at htokens₁
  exact eq_of_tokens_eq hreadable₁ hreadable₂ (Except.ok.inj htokens₁.symm)

/-- Two texts of the same negation. -/
theorem text_inj_negate :
    let scope : Scope := fun name => if name = "x" then some (.constant 2) else none
    ∃ e₁ e₂, Expr.ofText scope "-x * 0" = .ok e₁ ∧ Expr.ofText scope "-(x * 0)" = .ok e₂ ∧
      e₁.text = "-(x * 0)" ∧ e₁ = e₂ := by
  intro scope
  let zero : Quantity := ⟨Binary64.toFloat 0, none, false⟩
  let e : Expr := .negate (.binary .multiply (.identifier ⟨"x", .constant 2⟩) (.literal zero))
  have h₁ : Expr.ofText scope "-x * 0" = .ok e := by cbv
  have h₂ : Expr.ofText scope "-(x * 0)" = .ok e := by cbv
  have htext : e.text = "-(x * 0)" := by cbv
  have hfinite : ∀ value, .literal value ∈ e.postorder → value.magnitude.isFinite = true := by
    intro value hvalue
    have hzero : value = zero := by simpa [e, Expr.postorder] using hvalue
    rw [hzero, Binary64.isFinite_iff]
    decide
  exact ⟨e, e, h₁, h₂, htext, text_inj h₁ h₂ hfinite hfinite rfl⟩

end UnitCalc
