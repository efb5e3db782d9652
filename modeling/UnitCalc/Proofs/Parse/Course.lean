import Mathlib
import UnitCalc.Lexeme.Arrangement
import UnitCalc.Proofs.Parse.Origin
import UnitCalc.Proofs.Parse.Recognition

/-!
# What lies behind a run

The lexemes of a run are read one by one and in their order, so those that have been read are a
start of all of them. `Course` says what is known about this start at a cursor: the scope knows the
names in it, and counting its parentheses leaves as many open as expressions are being read inside
parentheses. The counter is that of the structural check, so the check and the run can be compared
at every cursor.

* `Course.pass`, `enter`, `leave`: one more lexeme is read.
* `Call.Stands`: the start that lies behind a call. Where an operand comes next, it is empty or ends
  in an operator or an opening parenthesis.
* `Parses.course`, `Calls.stands`: a success and a call take the start further.
* `Reached.stands`: the same for every call that a run comes to.
-/

namespace UnitCalc

/-- What is left is the lexeme that the cursor shows and those behind it. -/
theorem Cursor.rest_eq_cons {c : Cursor} (hne : c.rest ≠ []) :
    c.rest = c.peek :: c.advance.rest := by
  obtain ⟨source, rest, taken⟩ := c
  cases rest with
  | nil => exact absurd rfl hne
  | cons l rest => rfl

namespace Grammar

/-! ## Cursors -/

/-- In front of the cursor lie the lexemes `before`. The scope knows the names among them, and
`opened` of the parentheses that they open are not closed again. -/
structure Course (scope : Scope) (lexemes : List Lexeme) (opened : Nat) (before : List Lexeme)
    (c : Cursor) : Prop where
  split : lexemes = before ++ c.rest
  known : ∀ l ∈ before, ∀ name, l.token = .name name → scope name ≠ none
  count : ∀ w, parenthesisFault? 0 (before.map Lexeme.token ++ w) = parenthesisFault? opened w

/-- An operand comes next: what lies in front of the cursor is nothing, or it ends in an operator or
an opening parenthesis. -/
def OperandNext (scope : Scope) (lexemes : List Lexeme) (opened : Nat) (c : Cursor) : Prop :=
  ∃ before, Course scope lexemes opened before c ∧
    ∀ l ∈ before.getLast?, l.token.isOperator = true ∨ l.token = .openParen

section Cursors

variable {scope : Scope} {lexemes before : List Lexeme} {opened opened' : Nat} {t : Token}
  {c : Cursor}

namespace Course

theorem start (scope : Scope) (source : String) (lexemes : List Lexeme) :
    Course scope lexemes 0 [] (Cursor.ofLexemes source lexemes) :=
  ⟨rfl, by simp, fun _ => rfl⟩

/-- At the end everything has been read. -/
theorem eq_of_rest_eq_nil (h : Course scope lexemes opened before c) (hnil : c.rest = []) :
    lexemes = before := by
  rw [h.split, hnil, List.append_nil]

theorem split_cons (h : Course scope lexemes opened before c) (hne : c.rest ≠ []) :
    lexemes = before ++ c.peek :: c.advance.rest := by
  rw [h.split, Cursor.rest_eq_cons hne]

theorem peek_mem (h : Course scope lexemes opened before c) (hne : c.rest ≠ []) :
    c.peek ∈ lexemes := by
  rw [h.split_cons hne]
  simp

/-- The next lexeme is read. What it does to the count is left to be said. -/
theorem advance (h : Course scope lexemes opened before c) (hne : c.rest ≠ [])
    (hknown : ∀ name, c.peek.token = .name name → scope name ≠ none)
    (hcount : ∀ w, parenthesisFault? opened (c.peek.token :: w) = parenthesisFault? opened' w) :
    Course scope lexemes opened' (before ++ [c.peek]) c.advance where
  split := by
    rw [h.split_cons hne, List.append_assoc]
    rfl
  known := by
    intro l hl
    rcases List.mem_append.1 hl with hl | hl
    · exact h.known l hl
    · rw [List.mem_singleton.1 hl]
      exact hknown
  count := by
    intro w
    rw [List.map_append, List.append_assoc]
    exact (h.count _).trans (hcount w)

/-- A lexeme other than a parenthesis is read. -/
theorem pass (h : Course scope lexemes opened before c) (htok : c.peek.token = t)
    (hend : t ≠ .endOfInput) (hopen : t ≠ .openParen) (hclose : t ≠ .closeParen)
    (hknown : ∀ name, t = .name name → scope name ≠ none) :
    Course scope lexemes opened (before ++ [c.peek]) c.advance := by
  subst htok
  refine h.advance (Cursor.rest_ne_nil hend) hknown fun w => ?_
  rw [parenthesisFault?]
  · exact hopen
  · exact hclose

theorem enter (h : Course scope lexemes opened before c) (htok : c.peek.token = .openParen) :
    Course scope lexemes (opened + 1) (before ++ [c.peek]) c.advance := by
  refine h.advance (Cursor.rest_ne_nil (by simp [htok])) (by simp [htok]) fun w => ?_
  rw [htok, parenthesisFault?]

theorem leave (h : Course scope lexemes (opened + 1) before c)
    (htok : c.peek.token = .closeParen) :
    Course scope lexemes opened (before ++ [c.peek]) c.advance := by
  refine h.advance (Cursor.rest_ne_nil (by simp [htok])) (by simp [htok]) fun w => ?_
  rw [htok, parenthesisFault?, if_neg (by simp), Nat.add_sub_cancel]

end Course

/-- Behind an operator or an opening parenthesis an operand comes next. -/
theorem Course.operandNext {l : Lexeme}
    (h : Course scope lexemes opened (before ++ [l]) c)
    (hl : l.token.isOperator = true ∨ l.token = .openParen) :
    OperandNext scope lexemes opened c := by
  refine ⟨_, h, fun m hm => ?_⟩
  rw [List.getLast?_concat] at hm
  cases hm
  exact hl

theorem OperandNext.sign {op : Operator} (h : OperandNext scope lexemes opened c)
    (htok : c.peek.token = .operator op) : OperandNext scope lexemes opened c.advance := by
  obtain ⟨before, hcourse, -⟩ := h
  have hpassed := hcourse.pass htok (by simp) (by simp) (by simp) (by simp)
  exact hpassed.operandNext (.inl (by rw [htok]; rfl))

theorem OperandNext.enter (h : OperandNext scope lexemes opened c)
    (htok : c.peek.token = .openParen) : OperandNext scope lexemes (opened + 1) c.advance := by
  obtain ⟨before, hcourse, -⟩ := h
  exact (hcourse.enter htok).operandNext (.inr htok)

end Cursors

/-! ## Calls -/

/-- What lies behind the call. The opening parenthesis of an argument has been read. -/
def Call.Stands (scope : Scope) (lexemes : List Lexeme) (opened : Nat) : Call → Prop
  | .expression _ _ c | .operand _ c | .attach _ (.operator _) _ _ c =>
    OperandNext scope lexemes opened c
  | .extend _ _ _ _ c => ∃ before, Course scope lexemes opened before c
  | .attach _ .argument _ _ c => OperandNext scope lexemes (opened + 1) c

section Run

variable {g : Grammar} {lexemes : List Lexeme} {opened : Nat} {a b : Call} {e : Expr} {h : Nat}
  {c d : Cursor}

/-- What comes next is attached: an operator, or an argument. -/
theorem stands_attach {scope : Scope} {before : List Lexeme} {depth : Nat} {left : Expr}
    {link : Link} (hcourse : Course scope lexemes opened before c)
    (hlink : c.peek.token.link? = some link) :
    (Call.attach depth link left h c.advance).Stands scope lexemes opened := by
  have htok := token_of_link hlink
  -- the parenthesis of an argument is read by the extension, so the attachment stands behind it
  cases link with
  | operator op =>
    have hpassed := hcourse.pass htok (by simp) (by simp) (by simp) (by simp)
    exact hpassed.operandNext (.inl (by rw [htok]; rfl))
  | argument => exact (hcourse.enter htok).operandNext (.inr htok)

/-- A success takes the start further, and it closes as many parentheses as it opens. -/
theorem Parses.course (hrun : Parses g a e h d) (hstands : a.Stands g.scope lexemes opened) :
    ∃ before, Course g.scope lexemes opened before d := by
  -- the number of open parentheses changes inside a group and an argument
  induction hrun generalizing opened with
  | expression _ _ _ ihop ihext => exact ihext (ihop hstands)
  | number htok =>
    obtain ⟨before, hcourse, -⟩ := hstands
    exact ⟨_, hcourse.pass htok (by simp) (by simp) (by simp) (by simp)⟩
  | name htok hscope =>
    obtain ⟨before, hcourse, -⟩ := hstands
    exact ⟨_, hcourse.pass htok (by simp) (by simp) (by simp) (by simp [hscope])⟩
  | plus htok _ ih | minus htok _ _ ih => exact ih (hstands.sign htok)
  | group htok _ hclose ih =>
    obtain ⟨before, hcourse⟩ := ih (hstands.enter htok)
    exact ⟨_, hcourse.leave hclose⟩
  | stop => exact hstands
  | link hlink _ _ _ ihatt ihext =>
    obtain ⟨before, hcourse⟩ := hstands
    exact ihext (ihatt (stands_attach hcourse hlink))
  | operator _ _ ih => exact ih hstands
  | argument _ _ hclose _ ih =>
    obtain ⟨before, hcourse⟩ := ih hstands
    exact ⟨_, hcourse.leave hclose⟩

/-- A call takes the start further, and inside parentheses one more of them is open. -/
theorem Calls.stands (hcall : Calls g a b) (hstands : a.Stands g.scope lexemes opened) :
    ∃ opened', b.Stands g.scope lexemes opened' := by
  cases hcall with
  | operand | right => exact ⟨opened, hstands⟩
  | @extend _ _ c _ _ _ _ hrun =>
    have hop : Parses g (.operand _ c) _ _ _ := parses_iff.2 hrun
    exact ⟨opened, hop.course hstands⟩
  | plus htok | minus htok => exact ⟨opened, OperandNext.sign hstands htok⟩
  | group htok => exact ⟨opened + 1, OperandNext.enter hstands htok⟩
  | attach hlink =>
    obtain ⟨before, hcourse⟩ := hstands
    exact ⟨opened, stands_attach hcourse hlink⟩
  | @again _ _ _ _ _ _ c _ _ hlink _ hrun =>
    obtain ⟨before, hcourse⟩ := hstands
    have hatt : Parses g (.attach _ _ _ _ c.advance) _ _ _ := parses_iff.2 hrun
    exact ⟨opened, hatt.course (stands_attach hcourse hlink)⟩
  | argument => exact ⟨opened + 1, hstands⟩

theorem stands_start (scope : Scope) (source : String) (lexemes : List Lexeme) :
    (Call.expression 0 0 (Cursor.ofLexemes source lexemes)).Stands scope lexemes 0 :=
  ⟨[], .start scope source lexemes, by simp⟩

/-- Every call that the run over a sequence comes to stands somewhere in the sequence. -/
theorem Reached.stands {source : String}
    (hreached : Reached g (.expression 0 0 (Cursor.ofLexemes source lexemes)) a) :
    ∃ opened, a.Stands g.scope lexemes opened := by
  have hstart : ∃ opened, Call.Stands g.scope lexemes opened
      (.expression 0 0 (Cursor.ofLexemes source lexemes)) :=
    ⟨0, stands_start g.scope source lexemes⟩
  refine Reached.induct (motive := fun b => ∃ opened, b.Stands g.scope lexemes opened) hreached
    hstart fun b c hcall hb => ?_
  obtain ⟨opened, hstands⟩ := hb
  exact hcall.stands hstands

/-- The expression in parentheses has been read, and they are still open. -/
theorem ExpectsClosing.course (hexpects : ExpectsClosing g a d)
    (hstands : a.Stands g.scope lexemes opened) :
    ∃ before, Course g.scope lexemes (opened + 1) before d := by
  cases hexpects with
  | group htok hexp => exact hexp.course (OperandNext.enter hstands htok)
  | argument _ hexp => exact hexp.course hstands

end Run

end Grammar

end UnitCalc
