import Mathlib
import UnitCalc.Proofs.Lexeme.Arrangement
import UnitCalc.Proofs.Lexeme.MaximalMunch
import UnitCalc.Proofs.Parse.Course
import UnitCalc.Proofs.Stages

/-!
# Where an unexpected lexeme stands

A fault of an unexpected lexeme has one of three reasons: no operand begins with the lexeme, it
stands in place of a closing parenthesis, or it is left over behind a complete expression. The
structural check has counted the parentheses before, so there is always a lexeme where a closing
parenthesis is missing, and what is left over is no closing parenthesis (`unexpected_place`). The
end of the input and a closing parenthesis are therefore unexpected only where an operand has to
come, and what is in front of them is known there (`ofText_unexpected`).
-/

namespace UnitCalc

/-! ## Lexemes and what they are called -/

section Shown

variable {text : List Char} {l : Lexeme}

/-- A lexeme of a text is shown as it stands there. -/
theorem Lexeme.CutFrom.shown_eq (h : l.CutFrom text) : l.shown = l.text := by
  obtain ⟨_, _, r, _, _, _, _, hmakes⟩ := h
  unfold Lexeme.shown
  split
  · rename_i hend
    exact absurd hend hmakes.ne_endOfInput
  · rfl

/-- No lexeme is taken for the end of the input. -/
theorem Lexeme.CutFrom.shown_ne (h : l.CutFrom text) : l.shown ≠ "<<EOF>>" := by
  rw [h.shown_eq]
  intro htext
  obtain ⟨_, _, r, _, _, _, hlongest, _⟩ := h
  obtain ⟨c, rest, hcons, hbegins⟩ := Rule.begins_of_mem hlongest.mem
  have hfirst : c = '<' := by
    rw [htext] at hcons
    exact (List.cons.inj hcons).1.symm
  -- no rule has words that begin like the name of the end
  have hnone : ∀ s : Rule, s.begins '<' = false := by
    intro s
    cases s <;> decide
  rw [hfirst, hnone] at hbegins
  exact absurd hbegins (by simp)

/-- What looks like a closing parenthesis is one. -/
theorem Lexeme.CutFrom.closeParen_of_shown (h : l.CutFrom text) (hshown : l.shown = ")") :
    l.token = .closeParen := by
  rw [h.shown_eq] at hshown
  obtain ⟨_, _, r, _, _, _, hlongest, hmakes⟩ := h
  rw [hshown] at hlongest hmakes
  obtain ⟨c, rest, hcons, hbegins⟩ := Rule.begins_of_mem hlongest.mem
  obtain ⟨rfl, -⟩ : ')' = c ∧ [] = rest := List.cons.inj hcons
  -- only the rule of signs has words that begin with a parenthesis
  have hsign : Rule.sign.begins ')' = true := by decide
  obtain rfl := Rule.begins_unique hbegins hsign
  exact hmakes.unique .closeParen

end Shown

/-! ## Runs over well-arranged lexemes -/

namespace Grammar

variable {g : Grammar} {source : String} {lexemes before : List Lexeme} {c d : Cursor}

/-- In front of an operand the cursor shows a lexeme of the sequence, or its end. -/
theorem OperandNext.peek_mem {scope : Scope} {opened : Nat}
    (h : OperandNext scope lexemes opened c) (hne : c.rest ≠ []) : c.peek ∈ lexemes := by
  obtain ⟨before, hcourse, -⟩ := h
  exact hcourse.peek_mem hne

/-- Inside parentheses there is always something left. -/
theorem Course.rest_ne_nil {scope : Scope} {opened : Nat}
    (h : Course scope lexemes (opened + 1) before c)
    (hbalanced : parenthesisFault? 0 (lexemes.map Lexeme.token) = none) : c.rest ≠ [] := by
  intro hnil
  -- at the end all parentheses that were opened are still open
  have hcount := h.count []
  rw [List.append_nil, ← h.eq_of_rest_eq_nil hnil, hbalanced] at hcount
  exact absurd hcount (by simp [parenthesisFault?])

/-- Outside of all parentheses none is closed. -/
theorem Course.peek_ne_closeParen {scope : Scope} (h : Course scope lexemes 0 before c)
    (hbalanced : parenthesisFault? 0 (lexemes.map Lexeme.token) = none) :
    c.peek.token ≠ .closeParen := by
  intro hclose
  have hne : c.rest ≠ [] := Cursor.rest_ne_nil (by simp [hclose])
  -- the count would fall below zero at the lexeme that comes next
  rw [h.split_cons hne, List.map_append, h.count, List.map_cons, hclose, parenthesisFault?,
    if_pos rfl] at hbalanced
  exact absurd hbalanced (by simp)

/-- Where the end of the input stands in place of an operand, an operator is the last lexeme, or
there is none at all. -/
theorem OperandNext.last {scope : Scope} {opened : Nat} (h : OperandNext scope lexemes opened c)
    (hnil : c.rest = []) (hbalanced : parenthesisFault? 0 (lexemes.map Lexeme.token) = none) :
    lexemes = [] ∨ ∃ (before : List Lexeme) (l : Lexeme),
      lexemes = before ++ [l] ∧ l.token.isOperator = true := by
  obtain ⟨before, hcourse, hlast⟩ := h
  obtain rfl := hcourse.eq_of_rest_eq_nil hnil
  rcases List.eq_nil_or_concat' lexemes with rfl | ⟨before, l, rfl⟩
  · exact .inl rfl
  · refine .inr ⟨before, l, rfl, (hlast l (by simp)).resolve_right fun hopen => ?_⟩
    -- the last parenthesis would be open
    rw [List.map_append, List.map_singleton, hopen] at hbalanced
    exact parenthesisFault?_concat_openParen 0 _ hbalanced

/-- Where a closing parenthesis stands in place of an operand, there is something in front of it. -/
theorem OperandNext.pair {scope : Scope} {opened : Nat} (h : OperandNext scope lexemes opened c)
    (hclose : c.peek.token = .closeParen)
    (hbalanced : parenthesisFault? 0 (lexemes.map Lexeme.token) = none) :
    ∃ (before after : List Lexeme) (l m : Lexeme), lexemes = before ++ l :: m :: after ∧
      m.token = .closeParen ∧ (l.token.isOperator = true ∨ l.token = .openParen) := by
  obtain ⟨before, hcourse, hlast⟩ := h
  have hall := hcourse.split_cons (Cursor.rest_ne_nil (by simp [hclose]))
  rcases List.eq_nil_or_concat' before with rfl | ⟨before, l, rfl⟩
  · rw [hall, List.nil_append, List.map_cons, hclose, parenthesisFault?, if_pos rfl] at hbalanced
    exact absurd hbalanced (by simp)
  · refine ⟨before, c.advance.rest, l, c.peek, ?_, hclose, hlast l (by simp)⟩
    rw [hall, List.append_assoc]
    rfl

/-- Where a run expects a closing parenthesis, there is a lexeme. -/
theorem rest_ne_nil_of_expectsClosing {a : Call}
    (hbalanced : parenthesisFault? 0 (lexemes.map Lexeme.token) = none)
    (hreached : Reached g (.expression 0 0 (Cursor.ofLexemes source lexemes)) a)
    (hexpects : ExpectsClosing g a d) : d.rest ≠ [] := by
  obtain ⟨opened, hstands⟩ := hreached.stands
  obtain ⟨before, hcourse⟩ := hexpects.course hstands
  exact hcourse.rest_ne_nil hbalanced

/-- What a complete expression leaves over does not begin with a closing parenthesis. -/
theorem peek_ne_closeParen_of_parses {e : Expr} {h : Nat}
    (hbalanced : parenthesisFault? 0 (lexemes.map Lexeme.token) = none)
    (hrun : Parses g (.expression 0 0 (Cursor.ofLexemes source lexemes)) e h d) :
    d.peek.token ≠ .closeParen := by
  obtain ⟨before, hcourse⟩ := hrun.course (stands_start g.scope source lexemes)
  exact hcourse.peek_ne_closeParen hbalanced

/-- An unexpected lexeme stands where an operand has to come; otherwise it is really there, and it
is no closing parenthesis. -/
theorem unexpected_place {shown : String}
    (hbalanced : parenthesisFault? 0 (lexemes.map Lexeme.token) = none)
    (hparse : g.parse source lexemes = .error (.unexpectedToken shown)) :
    ∃ c : Cursor, c.peek.shown = shown ∧
      ((∃ opened, OperandNext g.scope lexemes opened c) ∨
        c.peek ∈ lexemes ∧ c.peek.token ≠ .closeParen) := by
  rcases parse_eq_error.1 hparse with ⟨d, hrun⟩ | ⟨e, h, d, hrun, hmore, hfault⟩
  · obtain ⟨b, hreached, hfinds⟩ := hrun.exists_finds
    obtain ⟨opened, hstands⟩ := hreached.stands
    generalize hfault : Fault.unexpectedToken shown = fault at hfinds
    -- only two of the faults that a call finds are of this sort
    cases hfinds with
    | tooDeep | unknown | notInvocable | constant => exact absurd hfault (by simp)
    | @unexpected _ c =>
      exact ⟨c, (Fault.unexpectedToken.inj hfault).symm, .inl ⟨opened, hstands⟩⟩
    | @unclosed _ d hexpects hclose =>
      obtain ⟨before, hcourse⟩ := hexpects.course hstands
      exact ⟨d, (Fault.unexpectedToken.inj hfault).symm,
        .inr ⟨hcourse.peek_mem (hcourse.rest_ne_nil hbalanced), hclose⟩⟩
  · -- what is left over
    obtain ⟨before, hcourse⟩ := hrun.course (stands_start g.scope source lexemes)
    exact ⟨d, (Fault.unexpectedToken.inj hfault).symm,
      .inr ⟨hcourse.peek_mem hmore, hcourse.peek_ne_closeParen hbalanced⟩⟩

end Grammar

/-! ## Texts -/

/-- The fault of an unexpected lexeme is one of the parser, which is only given lexemes that are
well arranged. -/
theorem exists_parse_of_unexpected {scope : Scope} {text shown : String}
    (h : Expr.ofText scope text = .error (.unexpectedToken shown)) :
    ∃ lexemes, tokenize text = .ok lexemes ∧
      parenthesisFault? 0 (lexemes.map Lexeme.token) = none ∧
        Grammar.parse ⟨scope, some nestingLimit⟩ text lexemes =
          .error (.unexpectedToken shown) := by
  have hevaluate : evaluate scope text = .error (.unexpectedToken shown) :=
    bind_eq_error.2 (.inl h)
  have hfails : FailsAt scope text .tree (.unexpectedToken shown) := failsAt_stage hevaluate
  cases hfails with
  | @tree lexemes _ htext hcheck hparse =>
    obtain ⟨-, -, hbalanced⟩ := arranged_iff.1 (checkArrangement_eq_ok.1 hcheck)
    exact ⟨lexemes, htext, hbalanced, hparse⟩

/-- If the end of the input is unexpected, the text has no lexemes or ends in an operator. If a
closing parenthesis is unexpected, one stands directly behind an operator or an opening parenthesis.
For once the lexemes of a text are well arranged, the input never ends where a closing parenthesis
is expected, and what is left over behind a whole expression is no closing parenthesis. -/
theorem ofText_unexpected (scope : Scope) (text : String) :
    (Expr.ofText scope text = .error (.unexpectedToken "<<EOF>>") →
      ∃ lexemes, tokenize text = .ok lexemes ∧
        (lexemes = [] ∨ ∃ (before : List Lexeme) (l : Lexeme),
          lexemes = before ++ [l] ∧ l.token.isOperator = true)) ∧
    (Expr.ofText scope text = .error (.unexpectedToken ")") →
      ∃ (before after : List Lexeme) (l m : Lexeme),
        tokenize text = .ok (before ++ l :: m :: after) ∧ m.token = .closeParen ∧
          (l.token.isOperator = true ∨ l.token = .openParen)) ∧
    ∀ lexemes, tokenize text = .ok lexemes → checkArrangement lexemes = .ok ⟨⟩ →
      let g : Grammar := ⟨scope, some nestingLimit⟩
      let start : Grammar.Call := .expression 0 0 (Cursor.ofLexemes text lexemes)
      (∀ a d, Grammar.Reached g start a → Grammar.ExpectsClosing g a d → d.rest ≠ []) ∧
        ∀ e h d, Grammar.Parses g start e h d → d.peek.token ≠ .closeParen := by
  refine ⟨fun hend => ?_, fun hclose => ?_, fun lexemes _ hcheck => ?_⟩
  · obtain ⟨lexemes, htext, hbalanced, hparse⟩ := exists_parse_of_unexpected hend
    have hcut := (decomposition_of_tokenize htext).cut
    -- the end of the input is no lexeme, so only an operand can be missing
    refine ⟨lexemes, htext, ?_⟩
    obtain ⟨c, hshown, ⟨opened, hnext⟩ | ⟨hmem, -⟩⟩ := Grammar.unexpected_place hbalanced hparse
    · refine hnext.last ?_ hbalanced
      by_contra hne
      exact (hcut _ (hnext.peek_mem hne)).shown_ne hshown
    · exact absurd hshown (hcut _ hmem).shown_ne
  · obtain ⟨lexemes, htext, hbalanced, hparse⟩ := exists_parse_of_unexpected hclose
    have hcut := (decomposition_of_tokenize htext).cut
    obtain ⟨c, hshown, ⟨opened, hnext⟩ | ⟨hmem, hno⟩⟩ := Grammar.unexpected_place hbalanced hparse
    -- the parenthesis is a lexeme, since the end is shown in another way
    · have hne : c.rest ≠ [] := by
        intro hnil
        have hend : c.peek.shown = "<<EOF>>" := by
          rw [Cursor.peek, hnil]
          rfl
        exact absurd (hend.symm.trans hshown) (by decide)
      have htok := (hcut _ (hnext.peek_mem hne)).closeParen_of_shown hshown
      obtain ⟨before, after, l, m, rfl, hpair⟩ := hnext.pair htok hbalanced
      exact ⟨before, after, l, m, htext, hpair⟩
    · exact absurd ((hcut _ hmem).closeParen_of_shown hshown) hno
  · obtain ⟨-, -, hbalanced⟩ := arranged_iff.1 (checkArrangement_eq_ok.1 hcheck)
    exact ⟨fun a d => Grammar.rest_ne_nil_of_expectsClosing hbalanced,
      fun e h d => Grammar.peek_ne_closeParen_of_parses hbalanced⟩

/-- An operand is missing at the end of `x +`, and in front of the parenthesis in `(x + )`. -/
theorem ofText_unexpected_missing :
    let scope : Scope := fun name => if name = "x" then some (.constant 2) else none
    let lexemes : List Lexeme :=
      [⟨.openParen, "(", 0, 1, ⟨1, 1⟩⟩, ⟨.name "x", "x", 1, 2, ⟨1, 2⟩⟩,
        ⟨.operator .add, "+", 3, 4, ⟨1, 4⟩⟩, ⟨.closeParen, ")", 5, 6, ⟨1, 6⟩⟩]
    Expr.ofText scope "x +" = .error (.unexpectedToken "<<EOF>>") ∧
      (∃ lexemes, tokenize "x +" = .ok lexemes ∧
        (lexemes = [] ∨ ∃ (before : List Lexeme) (l : Lexeme),
          lexemes = before ++ [l] ∧ l.token.isOperator = true)) ∧
      Expr.ofText scope "(x + )" = .error (.unexpectedToken ")") ∧
      (∃ (before after : List Lexeme) (l m : Lexeme),
        tokenize "(x + )" = .ok (before ++ l :: m :: after) ∧ m.token = .closeParen ∧
          (l.token.isOperator = true ∨ l.token = .openParen)) ∧
      tokenize "(x + )" = .ok lexemes ∧ checkArrangement lexemes = .ok ⟨⟩ ∧
      ∀ e h d, Grammar.Parses ⟨scope, some nestingLimit⟩
          (.expression 0 0 (Cursor.ofLexemes "(x + )" lexemes)) e h d →
        d.peek.token ≠ .closeParen := by
  intro scope lexemes
  have hend : Expr.ofText scope "x +" = .error (.unexpectedToken "<<EOF>>") := by cbv
  have hclose : Expr.ofText scope "(x + )" = .error (.unexpectedToken ")") := by cbv
  have htext : tokenize "(x + )" = .ok lexemes := by cbv
  have hcheck : checkArrangement lexemes = .ok ⟨⟩ := by cbv
  exact ⟨hend, (ofText_unexpected scope "x +").1 hend, hclose,
    (ofText_unexpected scope "(x + )").2.1 hclose, htext, hcheck,
    ((ofText_unexpected scope "(x + )").2.2 lexemes htext hcheck).2⟩

end UnitCalc
