import Mathlib
import UnitCalc.Proofs.Lexeme.Position
import UnitCalc.Proofs.Parse.Course
import UnitCalc.Proofs.Scopes
import UnitCalc.Proofs.Stages

/-!
# The name that is not known

Names are looked up one by one, when they are read, and a text is read from the left. So the name
that a fault reports is the first one that the scope does not know, and no name is passed over
(`Grammar.unknown_place`, `Grammar.known_of_parse`). The place in the report is that of the lexeme,
which is the place of its first character in the text.
-/

namespace UnitCalc

/-! ## Sequences -/

namespace Grammar

variable {g : Grammar} {source : String} {lexemes : List Lexeme}

/-- The scope knows every name of a sequence that is read to its end. -/
theorem known_of_parse {e : Expr} (hparse : g.parse source lexemes = .ok e) :
    ∀ l ∈ lexemes, ∀ name, l.token = .name name → g.scope name ≠ none := by
  obtain ⟨h, d, hrun, hnil⟩ := parse_eq_ok.1 hparse
  -- the course of the run has looked every name up, and its lexemes are all there are
  obtain ⟨before, hcourse⟩ := hrun.course (stands_start g.scope source lexemes)
  rw [hcourse.eq_of_rest_eq_nil hnil]
  exact hcourse.known

/-- The unknown name is a lexeme of the sequence, and the scope knows the names in front of it. -/
theorem unknown_place {name : String} {position : Option Position}
    (hparse : g.parse source lexemes = .error (.unknownIdentifier name position)) :
    ∃ (before after : List Lexeme) (l : Lexeme), lexemes = before ++ l :: after ∧
      l.token = .name name ∧ g.scope name = none ∧ position = some l.position ∧
        ∀ m ∈ before, ∀ other, m.token = .name other → g.scope other ≠ none := by
  -- a parse fails in its run, or because something is left behind it
  rcases parse_eq_error.1 hparse with ⟨d, hrun⟩ | ⟨e, h, d, -, -, hfault⟩
  · obtain ⟨b, hreached, hfinds⟩ := hrun.exists_finds
    obtain ⟨opened, hstands⟩ := hreached.stands
    generalize hfault : Fault.unknownIdentifier name position = fault at hfinds
    -- of all that a cursor may find wrong, only one fault is that of an unknown name
    cases hfinds with
    | tooDeep | notInvocable | constant => exact absurd hfault (by simp)
    | unexpected | unclosed => exact absurd hfault (by simp [Lexeme.unexpected])
    | @unknown _ c _ htok hscope =>
      obtain ⟨rfl, rfl⟩ := Fault.unknownIdentifier.inj hfault
      obtain ⟨before, hcourse, -⟩ := hstands
      have hall := hcourse.split_cons (Cursor.rest_ne_nil (by simp [htok]))
      exact ⟨before, c.advance.rest, c.peek, hall, htok, hscope, rfl, hcourse.known⟩
  · exact absurd hfault (by simp [Lexeme.unexpected])

end Grammar

/-! ## Texts -/

/-- A name that is reported as unknown is a lexeme of the text. The scope does not know it, but
knows every name in front of it. The place that is reported is the one of the first character of the
name in the text. And as soon as the scope does not know some name of a text, the text has no
tree. -/
theorem evaluate_unknownIdentifier (scope : Scope) (text : String) :
    (∀ name position, evaluate scope text = .error (.unknownIdentifier name position) →
      ∃ (before after : List Lexeme) (l : Lexeme),
        tokenize text = .ok (before ++ l :: after) ∧ l.token = .name name ∧ scope name = none ∧
        (∀ m ∈ before, ∀ other, m.token = .name other → scope other ≠ none) ∧
        position = some (Position.ofOffset text.toList l.start) ∧
        ∃ u v, text.toList = u ++ (name.toList ++ v) ∧ l.start = byteLength u) ∧
    ∀ lexemes, tokenize text = .ok lexemes →
      (∃ l ∈ lexemes, ∃ name, l.token = .name name ∧ scope name = none) →
        ∀ e, Expr.ofText scope text ≠ .ok e := by
  refine ⟨fun name position hevaluate => ?_, fun lexemes htext hunknown e hread => ?_⟩
  · have hfails : FailsAt scope text .tree (.unknownIdentifier name position) :=
      failsAt_stage hevaluate
    cases hfails with
    | @tree lexemes _ htext _ hparse =>
      obtain ⟨before, after, l, rfl, hname, hnone, rfl, hknown⟩ := Grammar.unknown_place hparse
      have hmem : l ∈ before ++ l :: after := by simp
      -- the lexeme is cut from the text, so its name and its place can be read there
      have hcut := (decomposition_of_tokenize htext).cut l hmem
      obtain ⟨rfl, -, -⟩ := hcut.letters hname
      obtain ⟨u, v, -, hsplit, hstart, -⟩ := hcut
      refine ⟨before, after, l, htext, hname, hnone, hknown, ?_, u, v, hsplit, hstart⟩
      rw [position_of_tokenize htext l hmem]
  · obtain ⟨l, hl, name, hname, hnone⟩ := hunknown
    obtain ⟨lexemes', htext', hrest⟩ := exists_of_bind_eq_ok hread
    obtain ⟨-, -, hparse⟩ := exists_of_bind_eq_ok hrest
    cases htext.symm.trans htext'
    exact Grammar.known_of_parse hparse l hl name hname hnone

/-- The unknown name stands in the second line. -/
theorem evaluate_unknownIdentifier_foo :
    let scope : Scope := fun name => if name = "x" then some (.constant 2) else none
    let foo : Lexeme := ⟨.name "foo", "foo", 4, 7, ⟨2, 3⟩⟩
    let lexemes : List Lexeme :=
      [⟨.name "x", "x", 0, 1, ⟨1, 1⟩⟩, ⟨.operator .add, "+", 2, 3, ⟨2, 1⟩⟩, foo]
    evaluate scope "x\n+ foo" = .error (.unknownIdentifier "foo" (some ⟨2, 3⟩)) ∧
      (∃ (before after : List Lexeme) (l : Lexeme),
        tokenize "x\n+ foo" = .ok (before ++ l :: after) ∧ l.token = .name "foo" ∧
        scope "foo" = none ∧
        (∀ m ∈ before, ∀ other, m.token = .name other → scope other ≠ none) ∧
        some ⟨2, 3⟩ = some (Position.ofOffset "x\n+ foo".toList l.start) ∧
        ∃ u v, "x\n+ foo".toList = u ++ ("foo".toList ++ v) ∧ l.start = byteLength u) ∧
      tokenize "x\n+ foo" = .ok lexemes ∧ foo ∈ lexemes ∧ scope "foo" = none ∧
      ∀ e, Expr.ofText scope "x\n+ foo" ≠ .ok e := by
  intro scope foo lexemes
  have hevaluate : evaluate scope "x\n+ foo" =
      .error (.unknownIdentifier "foo" (some ⟨2, 3⟩)) := by cbv
  have htext : tokenize "x\n+ foo" = .ok lexemes := by cbv
  have hfoo : foo ∈ lexemes := by simp [lexemes]
  have hnone : scope "foo" = none := rfl
  obtain ⟨hplace, hread⟩ := evaluate_unknownIdentifier scope "x\n+ foo"
  exact ⟨hevaluate, hplace _ _ hevaluate, htext, hfoo, hnone,
    hread lexemes htext ⟨foo, hfoo, "foo", rfl, hnone⟩⟩

end UnitCalc
