import Mathlib
import UnitCalc.Answer
import UnitCalc.Proofs.Lexeme.Parentheses
import UnitCalc.Proofs.Lexeme.Words
import UnitCalc.Proofs.Parse.Chain
import UnitCalc.Proofs.Parse.Recognition

/-!
# Texts put together

Texts that are expressions, put in parentheses and joined by operators, signs or the name of a
function, are the expression that is joined in the same way. The three stages are followed one after
the other:

* `Admitted.around`: the text in parentheses is cut into lexemes like a text of its own, and is
  arranged as well as its parts are. What stands around the parentheses may be any such text.
* `Denotes`: a text that is admitted and whose tokens are a sum of the grammar. By `parse_derives`
  such a text is an expression unless it is nested too deeply, so it is enough to put derivations
  together.
* `ofText_composition`: the five ways of putting texts together, and the value of the second.
-/

namespace UnitCalc

/-! ## Admitted texts -/

/-- The text has the tokens `w`, and there is no structural fault in them. -/
structure Admitted (text : List Char) (w : List Token) : Prop where
  tokens : tokensOf text = .ok w
  arranged : Arranged w

namespace Admitted

variable {x s y : List Char} {u w v : List Token}

theorem nil : Admitted [] [] := ⟨tokensOf_nil, rfl⟩

theorem sign (op : Operator) : Admitted [op.symbol] [.operator op] := by
  refine ⟨?_, rfl⟩
  rw [tokensOf_sign (ofSymbol?_symbol op), tokensOf_nil]
  rfl

/-- A sign between blanks. -/
theorem spaced (op : Operator) : Admitted [' ', op.symbol, ' '] [.operator op] := by
  have hspace : isBlank ' ' = true := by decide
  refine ⟨?_, rfl⟩
  rw [tokensOf_blank hspace, tokensOf_sign (ofSymbol?_symbol op), tokensOf_blank hspace,
    tokensOf_nil]
  rfl

theorem name {name : String} (hne : name ≠ "")
    (hletters : ∀ c ∈ name.toList, c.isAlpha = true) : Admitted name.toList [.name name] :=
  ⟨tokensOf_name (mt String.toList_eq_nil_iff.1 hne) hletters, rfl⟩

/-- Parentheses break a text, so the three parts are cut apart at them. -/
theorem around (hx : Admitted x u) (hs : Admitted s w) (hy : Admitted y v) :
    Admitted (x ++ '(' :: (s ++ ')' :: y)) (u ++ .openParen :: (w ++ .closeParen :: v)) := by
  have hopen : Token.ofSymbol? '(' = some .openParen := by decide
  have hclose : Token.ofSymbol? ')' = some .closeParen := by decide
  refine ⟨?_, hx.arranged.around hs.arranged hy.arranged⟩
  -- from the back to the front, since every part is cut off in front of what is known behind it
  have hend : tokensOf (')' :: y) = .ok (.closeParen :: v) := by
    rw [tokensOf_sign hclose, hy.tokens]
    rfl
  have hinside : tokensOf (s ++ ')' :: y) = .ok (w ++ .closeParen :: v) :=
    tokensOf_append (breaks_sign hclose) hs.tokens hend
  have hbegin : tokensOf ('(' :: (s ++ ')' :: y)) =
      .ok (.openParen :: (w ++ .closeParen :: v)) := by
    rw [tokensOf_sign hopen, hinside]
    rfl
  exact tokensOf_append (breaks_sign hopen) hx.tokens hbegin

/-- Nothing needs to stand around the parentheses. -/
theorem grouped (hs : Admitted s w) :
    Admitted ('(' :: (s ++ [')'])) (.openParen :: (w ++ [.closeParen])) :=
  nil.around hs nil

end Admitted

/-! ## Texts and their expressions -/

/-- The text is admitted, and the grammar gives it the expression `e`. -/
def Denotes (scope : Scope) (text : List Char) (e : Expr) : Prop :=
  ∃ w, Admitted text w ∧ Derives scope .sum w e

/-- The first result is the second one, unless it is the fault of too deep nesting. -/
def UnlessTooDeep {α : Type} (a b : Except Fault α) : Prop := a = b ∨ a = .error .nestingTooDeep

section Denotes

variable {scope : Scope} {e : Expr}

/-- A text that passes the first two stages is admitted. -/
theorem admitted_of_tokenize {text : String} {lexemes : List Lexeme}
    (htokenize : tokenize text = .ok lexemes) (hcheck : checkArrangement lexemes = .ok ⟨⟩) :
    Admitted text.toList (lexemes.map Lexeme.token) := by
  refine ⟨?_, checkArrangement_eq_ok.1 hcheck⟩
  rw [← tokenize_tokens, htokenize]
  rfl

/-- What is read from an admitted text is what the parser makes of its tokens: the stages in front
of it succeed. -/
theorem ofText_eq_parse (scope : Scope) {text : String} {w : List Token}
    (h : Admitted text.toList w) :
    ∃ lexemes, lexemes.map Lexeme.token = w ∧
      Expr.ofText scope text = Grammar.parse ⟨scope, some nestingLimit⟩ text lexemes := by
  have htokens := h.tokens
  rw [← tokenize_tokens] at htokens
  obtain ⟨lexemes, htokenize, hw⟩ := exists_of_map_eq_ok htokens
  have hcheck : checkArrangement lexemes = .ok ⟨⟩ := by
    rw [checkArrangement_eq_ok, hw]
    exact h.arranged
  refine ⟨lexemes, hw, ?_⟩
  rw [Expr.ofText, htokenize]
  simp only [bind, Except.bind, hcheck]

/-- A run within the nesting limit that takes in all tokens of a text gives its expression. -/
theorem ofText_of_admitted {text : String} {w : List Token} (h : Admitted text.toList w)
    (hrun : Grammar.Reaches ⟨scope, some nestingLimit⟩ (.expression 0 0) w [] e) :
    Expr.ofText scope text = .ok e := by
  obtain ⟨lexemes, hlexemes, htext⟩ := ofText_eq_parse scope h
  rw [← hlexemes] at hrun
  rw [htext]
  exact Grammar.parse_of_reaches hrun

/-- The expression that is read from a text is the one that the grammar gives to it. -/
theorem denotes_of_ofText {text : String} (h : Expr.ofText scope text = .ok e) :
    Denotes scope text.toList e := by
  obtain ⟨lexemes, htokenize, h⟩ := exists_of_bind_eq_ok h
  obtain ⟨⟨⟩, hcheck, hparse⟩ := exists_of_bind_eq_ok h
  exact ⟨_, admitted_of_tokenize htokenize hcheck, Grammar.derives_of_parse hparse⟩

/-- The expression that the grammar gives to a text is read from it, unless it is nested too deeply.
The parser with a limit differs from the one without only in giving up. -/
theorem ofText_of_denotes {text : String} (h : Denotes scope text.toList e) :
    UnlessTooDeep (Expr.ofText scope text) (.ok e) := by
  obtain ⟨w, hadmitted, hderives⟩ := h
  -- the grammar is that of the parser without a limit
  obtain ⟨lexemes, hw, htext⟩ := ofText_eq_parse scope hadmitted
  rw [← hw] at hderives
  have hparse : Grammar.parse ⟨scope, none⟩ text lexemes = .ok e :=
    Grammar.parse_of_derives hderives
  rw [htext, UnlessTooDeep, ← hparse]
  exact Grammar.parse_cutShort ⟨scope, some nestingLimit⟩ text lexemes

end Denotes

/-! ## Putting texts together -/

section Compose

variable {scope : Scope} {s t : List Char} {e f : Expr}

/-- Two atoms can be joined by every operator, whatever its precedence is. -/
theorem Derives.binary_of_atoms (op : Operator) {w v : List Token}
    (hw : Derives scope .atom w e) (hv : Derives scope .atom v f) :
    Derives scope .sum (w ++ .operator op :: v) (.binary op e f) := by
  -- the sum, the product and the power have a rule of their own each
  cases op with
  | add | subtract => exact .sum_add (by simp) hw.sum_of_atom hv.term_of_atom
  | multiply | divide =>
    exact .sum_term
      (.term_product (.product_multiply (by simp) hw.product_of_atom (.power_atom hv)))
  | power =>
    exact .sum_term (.term_product (.product_power (.power_power hw (.power_atom hv))))

theorem Denotes.group (hs : Denotes scope s e) : Denotes scope ('(' :: (s ++ [')'])) e := by
  obtain ⟨w, hadmitted, hderives⟩ := hs
  exact ⟨_, hadmitted.grouped, .sum_of_atom (.atom_group hderives)⟩

/-- Two expressions in parentheses with an operator between them are the operation. -/
theorem Denotes.binary (op : Operator) (hs : Denotes scope s e) (ht : Denotes scope t f) :
    Denotes scope ('(' :: (s ++ ')' :: ' ' :: op.symbol :: ' ' :: '(' :: (t ++ [')'])))
      (.binary op e f) := by
  obtain ⟨w, hw, he⟩ := hs
  obtain ⟨v, hv, hf⟩ := ht
  -- first the right side with the operator in front of it, then the left side in front of both
  have hright := (Admitted.spaced op).around hv .nil
  have hboth := Admitted.nil.around hw hright
  refine ⟨_, hboth, ?_⟩
  have hderives := Derives.binary_of_atoms op (.atom_group he) (.atom_group hf)
  simpa using hderives

theorem Denotes.minus (hs : Denotes scope s e) :
    Denotes scope ('-' :: '(' :: (s ++ [')'])) (.negate e) := by
  obtain ⟨w, hadmitted, hderives⟩ := hs
  have hatom : Derives scope .atom _ e := .atom_group hderives
  exact ⟨_, (Admitted.sign .subtract).around hadmitted .nil,
    .sum_term (.term_tail (.tail_minus hatom.term_of_atom))⟩

theorem Denotes.plus (hs : Denotes scope s e) : Denotes scope ('+' :: '(' :: (s ++ [')'])) e := by
  obtain ⟨w, hadmitted, hderives⟩ := hs
  have hatom : Derives scope .atom _ e := .atom_group hderives
  exact ⟨_, (Admitted.sign .add).around hadmitted .nil,
    .sum_term (.term_tail (.tail_plus hatom.term_of_atom))⟩

/-- The name of a function in front of parentheses is a call of it. -/
theorem Denotes.call {name : String} {g : UnaryFunction} (hne : name ≠ "")
    (hletters : ∀ c ∈ name.toList, c.isAlpha = true) (hscope : scope name = some (.function g))
    (hs : Denotes scope s e) :
    Denotes scope (name.toList ++ '(' :: (s ++ [')'])) (.call ⟨name, .function g⟩ e) := by
  obtain ⟨w, hadmitted, hderives⟩ := hs
  exact ⟨_, (Admitted.name hne hletters).around hadmitted .nil,
    .sum_of_atom (.atom_call (.callee_name hscope) hderives)⟩

/-- The answer to the text of an operation is the operation on the answers to its sides. -/
theorem UnlessTooDeep.evaluate_binary {text : String} {op : Operator}
    (h : UnlessTooDeep (Expr.ofText scope text) (.ok (.binary op e f))) :
    UnlessTooDeep (evaluate scope text) do
      let a ← e.eval
      let b ← f.eval
      return Answer.ofQuantity (← op.apply a b) := by
  unfold evaluate
  rcases h with hok | hdeep
  · left
    rw [hok]
    -- the evaluation of an operation takes the same steps in the same order
    simp only [bind, Except.bind, Expr.eval]
    cases e.eval with
    | error fault => rfl
    | ok a =>
      cases f.eval with
      | error fault => rfl
      | ok b => rfl
  · right
    rw [hdeep]
    rfl

end Compose

/-! ## The texts themselves -/

/-- What was read from two texts is put together like the texts, and the value of an operation in
parentheses is that of its sides, the left one first. -/
theorem ofText_composition {scope : Scope} {s₁ s₂ : String} {e₁ e₂ : Expr}
    (h₁ : Expr.ofText scope s₁ = .ok e₁) (h₂ : Expr.ofText scope s₂ = .ok e₂) :
    UnlessTooDeep (Expr.ofText scope ("(" ++ s₁ ++ ")")) (.ok e₁) ∧
      (∀ op : Operator,
        let text := "(" ++ s₁ ++ ") " ++ String.singleton op.symbol ++ " (" ++ s₂ ++ ")"
        UnlessTooDeep (Expr.ofText scope text) (.ok (.binary op e₁ e₂)) ∧
          UnlessTooDeep (evaluate scope text) do
            let a ← e₁.eval
            let b ← e₂.eval
            return Answer.ofQuantity (← op.apply a b)) ∧
      UnlessTooDeep (Expr.ofText scope ("-(" ++ s₁ ++ ")")) (.ok (.negate e₁)) ∧
      UnlessTooDeep (Expr.ofText scope ("+(" ++ s₁ ++ ")")) (.ok e₁) ∧
      ∀ (name : String) (f : UnaryFunction), name ≠ "" → (∀ c ∈ name.toList, c.isAlpha = true) →
        scope name = some (.function f) →
          UnlessTooDeep (Expr.ofText scope (name ++ "(" ++ s₁ ++ ")"))
            (.ok (.call ⟨name, .function f⟩ e₁)) := by
  -- both texts are taken to the grammar, joined there, and taken back
  have hs := denotes_of_ofText h₁
  have ht := denotes_of_ofText h₂
  refine ⟨?_, fun op => ?_, ?_, ?_, fun name f hne hletters hscope => ?_⟩
  · apply ofText_of_denotes
    simpa using hs.group
  · intro text
    have hbinary : UnlessTooDeep (Expr.ofText scope text) (.ok (.binary op e₁ e₂)) := by
      apply ofText_of_denotes
      simpa [text] using hs.binary op ht
    exact ⟨hbinary, hbinary.evaluate_binary⟩
  · apply ofText_of_denotes
    simpa using hs.minus
  · apply ofText_of_denotes
    simpa using hs.plus
  · apply ofText_of_denotes
    simpa using hs.call hne hletters hscope

/-- A sign may stand in the parentheses behind a power sign, and here nothing is too deep. -/
theorem ofText_composition_power :
    let scope : Scope := fun name => if name = "x" then some (.constant 2) else none
    let x : Expr := .identifier ⟨"x", .constant 2⟩
    Expr.ofText scope "x" = .ok x ∧ Expr.ofText scope "-x" = .ok (.negate x) ∧
      Expr.ofText scope "(x) ^ (-x)" = .ok (.binary .power x (.negate x)) := by
  intro scope x
  have hx : Expr.ofText scope "x" = .ok x := by cbv
  have hminus : Expr.ofText scope "-x" = .ok (.negate x) := by cbv
  -- the text has a tree, so it is not nested too deeply; which tree, the composition says
  have hshallow : Expr.ofText scope "(x) ^ (-x)" ≠ .error .nestingTooDeep := by
    have hread : (Expr.ofText scope "(x) ^ (-x)").isOk = true := by cbv
    intro hdeep
    rw [hdeep] at hread
    exact absurd hread (by decide)
  have hcompose := (ofText_composition hx hminus).2.1 .power
  exact ⟨hx, hminus, hcompose.1.resolve_right hshallow⟩

end UnitCalc
