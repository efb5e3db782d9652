import Mathlib
import UnitCalc.Proofs.Lexeme.Words
import UnitCalc.Proofs.Parse.Calls
import UnitCalc.Proofs.Results

/-!
# Where lexemes stand does not matter

What is read from lexemes depends on what they say and not on where they stand. There is one
exception: an unknown name is reported with its place. So two runs on lexemes that say the same are
compared up to that place.

* `Cursor.Alike`: two cursors in front of the same words. They show the same, and stay alike when
  they move on.
* `outcome_alike`: the routines of the grammar find the same in front of alike cursors, and leave
  alike cursors behind.
* `parse_alike`, `checkArrangement_eq_of_words`: so lexemes that say the same are read and checked
  in the same way.
-/

namespace UnitCalc

/-! ## Lexemes and cursors -/

/-- Lexemes that say the same are unexpected in the same way. -/
theorem unexpected_eq_of_word {l m : Lexeme} (h : l.word = m.word) :
    l.unexpected = m.unexpected := by
  obtain ⟨htoken, htext⟩ := Prod.mk.inj h
  rw [Lexeme.unexpected, Lexeme.unexpected, Lexeme.shown, Lexeme.shown, htoken, htext]

/-- The check of the arrangement looks at words only. -/
theorem checkArrangement_eq_of_words {lexemes moved : List Lexeme}
    (h : lexemes.map Lexeme.word = moved.map Lexeme.word) :
    checkArrangement lexemes = checkArrangement moved := by
  have htokens : lexemes.map Lexeme.token = moved.map Lexeme.token := by
    have hfst := congrArg (List.map Prod.fst) h
    rw [List.map_map, List.map_map] at hfst
    exact hfst
  rw [checkArrangement, checkArrangement, htokens]

namespace Cursor

/-- What the cursors have in front of them says the same. -/
def Alike (c d : Cursor) : Prop := c.rest.map Lexeme.word = d.rest.map Lexeme.word

variable {c d : Cursor}

theorem Alike.advance (h : c.Alike d) : c.advance.Alike d.advance := by
  have htail := congrArg List.tail h
  rw [← List.map_tail, ← List.map_tail] at htail
  exact htail

/-- The ends of two texts say the same. -/
theorem Alike.peek_word (h : c.Alike d) : c.peek.word = d.peek.word := by
  obtain ⟨source, rest, taken⟩ := c
  obtain ⟨source', rest', taken'⟩ := d
  cases rest with
  | nil =>
    obtain rfl : rest' = [] := List.map_eq_nil_iff.1 h.symm
    rfl
  | cons l rest =>
    cases rest' with
    | nil => exact absurd h (by simp [Alike])
    | cons m rest' => exact (List.cons.inj h).1

theorem Alike.peek_token (h : c.Alike d) : c.peek.token = d.peek.token :=
  congrArg Prod.fst h.peek_word

theorem Alike.isAtEnd_eq (h : c.Alike d) : c.isAtEnd = d.isAtEnd := by
  have hempty := congrArg List.isEmpty h
  rw [List.isEmpty_map, List.isEmpty_map] at hempty
  exact hempty

end Cursor

namespace Grammar

/-! ## Outcomes and calls -/

/-- Where a fault leaves the cursor does not matter. -/
inductive Outcome.Alike : Outcome → Outcome → Prop where
  | parsed (expr : Expr) (height : Nat) {c d : Cursor} (h : c.Alike d) :
      Alike (.parsed expr height c) (.parsed expr height d)
  | failed {f g : Fault} (h : f.Alike g) (c d : Cursor) : Alike (.failed f c) (.failed g d)

/-- The same call in front of cursors that are alike. -/
inductive Call.Alike : Call → Call → Prop where
  | expression (depth minPower : Nat) {c d : Cursor} (h : c.Alike d) :
      Alike (.expression depth minPower c) (.expression depth minPower d)
  | operand (depth : Nat) {c d : Cursor} (h : c.Alike d) :
      Alike (.operand depth c) (.operand depth d)
  | extend (depth minPower : Nat) (expr : Expr) (height : Nat) {c d : Cursor} (h : c.Alike d) :
      Alike (.extend depth minPower expr height c) (.extend depth minPower expr height d)
  | attach (depth : Nat) (link : Link) (left : Expr) (height : Nat) {c d : Cursor}
      (h : c.Alike d) : Alike (.attach depth link left height c) (.attach depth link left height d)

namespace Outcome.Alike

/-- Only a success goes on, so the continuations need to agree only behind a success. -/
theorem andThen {o o' : Outcome} {next next' : Expr → Nat → Cursor → Outcome} (ho : o.Alike o')
    (hnext : ∀ e h c d, o = .parsed e h c → c.Alike d → (next e h c).Alike (next' e h d)) :
    (o.andThen next).Alike (o'.andThen next') := by
  cases ho with
  | parsed e h hcursor => exact hnext e h _ _ rfl hcursor
  | failed hfault c d => exact .failed hfault c d

theorem node (g : Grammar) (e : Expr) (h : Nat) {c d : Cursor} (hcursor : c.Alike d) :
    (g.makeNode e h c).Alike (g.makeNode e h d) := by
  unfold makeNode
  split
  · exact .parsed e h hcursor
  · exact .failed (.refl _) c d

theorem unexpected {c d : Cursor} (hcursor : c.Alike d) :
    (Outcome.failed c.peek.unexpected c.advance).Alike
      (.failed d.peek.unexpected d.advance) := by
  rw [unexpected_eq_of_word hcursor.peek_word]
  exact .failed (.refl _) _ _

theorem closing {c d : Cursor} {o o' : Outcome} (hcursor : c.Alike d) (ho : o.Alike o') :
    (readClosing c o).Alike (readClosing d o') := by
  unfold readClosing
  rw [hcursor.peek_token]
  split
  · exact ho
  · exact unexpected hcursor

end Outcome.Alike

/-! ## The routines -/

/-- Calls that are alike find the same, and leave alike cursors behind. -/
theorem outcome_alike (g : Grammar) {a b : Call} (h : a.Alike b) :
    (a.outcome g).Alike (b.outcome g) := by
  -- the calls of the one run are those of the other, each in front of a cursor that is alike
  induction a using call_induction g generalizing b with
  | step a ih =>
    cases h with
    | @expression depth minPower c d hcursor =>
      show (g.readExpression depth minPower c).Alike (g.readExpression depth minPower d)
      rw [readExpression_eq, readExpression_eq]
      split
      · rename_i hadm
        exact .andThen (ih _ (.operand hadm) (.operand _ hcursor)) fun e h c' d' hrun hnext =>
          ih _ (.extend hadm hrun) (.extend _ _ e h hnext)
      · exact .failed (.refl _) c d
    | @operand depth c d hcursor =>
      show (g.readOperand depth c).Alike (g.readOperand depth d)
      rw [readOperand_eq, readOperand_eq, ← hcursor.peek_token]
      have hnext := hcursor.advance
      split
      · exact .parsed _ _ hnext
      · split
        · exact .parsed _ _ hnext
        · -- the one fault that tells where its lexeme stands
          exact .failed (.moved _ _ _) _ _
      · rename_i htok
        exact ih _ (.plus htok) (.expression _ _ hnext)
      · rename_i htok
        exact .andThen (ih _ (.minus htok) (.expression _ _ hnext)) fun _ _ _ _ _ hrest =>
          .node g _ _ hrest
      · rename_i htok
        exact .andThen (ih _ (.group htok) (.expression _ _ hnext)) fun _ _ _ _ _ hrest =>
          .closing hrest (.parsed _ _ hrest.advance)
      · exact .unexpected hcursor
    | @extend depth minPower left height c d hcursor =>
      show (g.readExtension depth minPower left height c).Alike
        (g.readExtension depth minPower left height d)
      rw [readExtension_eq, readExtension_eq, ← hcursor.peek_token]
      split
      · exact .parsed _ _ hcursor
      · rename_i link hlink
        split
        · exact .parsed _ _ hcursor
        · rename_i hpow
          have hlt : minPower < link.bindingPower := Nat.lt_of_not_le hpow
          exact .andThen (ih _ (.attach hlink hlt) (.attach _ _ _ _ hcursor.advance))
            fun e h _ _ hrun hrest => ih _ (.again hlink hlt hrun) (.extend _ _ e h hrest)
    | @attach depth link left height c d hcursor =>
      show (g.readAttachment depth link left height c).Alike
        (g.readAttachment depth link left height d)
      cases link with
      | operator op =>
        rw [readAttachment_operator, readAttachment_operator]
        exact .andThen (ih _ .right (.expression _ _ hcursor)) fun _ _ _ _ _ hrest =>
          .node g _ _ hrest
      | argument =>
        rw [readAttachment_argument, readAttachment_argument]
        split
        · split
          · exact .failed (.refl _) c d
          · rename_i f hfun
            exact .andThen (ih _ (.argument hfun) (.expression _ _ hcursor))
              fun _ _ _ _ _ hrest => .closing hrest (.node g _ _ hrest.advance)
        · exact .failed (.refl _) c d

/-- Lexemes that say the same are read in the same way, up to the place of an unknown name. -/
theorem parse_alike (g : Grammar) (source source' : String) {lexemes moved : List Lexeme}
    (h : lexemes.map Lexeme.word = moved.map Lexeme.word) :
    Alike (g.parse source lexemes) (g.parse source' moved) := by
  have hcursor : (Cursor.ofLexemes source lexemes).Alike (Cursor.ofLexemes source' moved) := h
  have hrun : (g.readExpression 0 0 (Cursor.ofLexemes source lexemes)).Alike
      (g.readExpression 0 0 (Cursor.ofLexemes source' moved)) :=
    outcome_alike g (.expression 0 0 hcursor)
  rw [parse_eq, parse_eq]
  generalize g.readExpression 0 0 (Cursor.ofLexemes source lexemes) = o at hrun ⊢
  generalize g.readExpression 0 0 (Cursor.ofLexemes source' moved) = o' at hrun ⊢
  -- both runs succeed or both fail
  cases hrun with
  | parsed e height hend =>
    -- the next lexeme decides, and the two runs see the same
    dsimp only
    rw [hend.isAtEnd_eq, unexpected_eq_of_word hend.peek_word]
    exact .refl _
  | failed hfault c d => exact .error hfault

end Grammar

end UnitCalc
