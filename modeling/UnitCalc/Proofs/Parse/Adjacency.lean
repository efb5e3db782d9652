import Mathlib
import UnitCalc.Lexeme.Arrangement
import UnitCalc.Proofs.Lexeme.Parentheses
import UnitCalc.Proofs.Parse.Failure
import UnitCalc.Proofs.Parse.Nesting
import UnitCalc.Proofs.Parse.Recognition

/-!
# Acceptance by neighbours

Whether a sequence of tokens is an expression can be told without a grammar: it is enough to look at
every pair of neighbours and to count parentheses. `Placed` collects these conditions.

* `Placed.of_derives`: every word of the grammar meets them. Induction on the derivation.
* `Ahead`: the conditions as a run sees them, for the tokens that are left, the token in front of
  them and the number of parentheses that are open. Every call keeps them (`Parses.done`), and
  nothing can fail as long as they hold (`Fails.not_ready`).
* `parse_placed`: both directions for whole sequences.

A parenthesis behind an operand is a call. That the operand is the name of a function is no matter
of neighbours, for it may stand in parentheses; where it is a name, the conditions are exact.
-/

namespace UnitCalc

/-- What an operand may end with: a number, a name or a parenthesis. -/
def Token.endsOperand : Token → Bool
  | number _ | name _ | closeParen => true
  | operator _ | openParen | endOfInput => false

/-- Behind an operator or an opening parenthesis an operand begins. Behind an operand comes an
operator or a closing parenthesis, or, if it does not end in a number, an argument. -/
def Neighbours (a b : Token) : Prop :=
  (a.isOperator ∨ a = .openParen → b.beginsOperand) ∧
    (a.endsOperand → b.isOperator ∨ b = .closeParen ∨ (b = .openParen ∧ a.isNumber = false))

/-- An argument stands directly behind the name of its function. -/
def NamesFunction (scope : Scope) (a b : Token) : Prop :=
  a.endsOperand → b = .openParen → ∃ name f, a = .name name ∧ scope name = some (.function f)

/-- A sequence in which every token stands where one of its sort may stand. -/
structure Placed (scope : Scope) (w : List Token) : Prop where
  nonempty : w ≠ []
  first : ∀ t ∈ w.head?, t.beginsOperand
  last : ∀ t ∈ w.getLast?, t.endsOperand
  chain : w.IsChain Neighbours
  known : ∀ name, .name name ∈ w → ∃ binding, scope name = some binding
  balanced : parenthesisFault? 0 w = none

/-! ## Pairs of neighbours -/

section Pairs

variable {a b : Token}

theorem neighbours_operator (op : Operator) (hb : b.beginsOperand) : Neighbours (.operator op) b :=
  ⟨fun _ => hb, fun ha => absurd ha (by simp [Token.endsOperand])⟩

theorem neighbours_openParen (hb : b.beginsOperand) : Neighbours .openParen b :=
  ⟨fun _ => hb, fun ha => absurd ha (by simp [Token.endsOperand])⟩

/-- What ends an operand is no operator and no opening parenthesis. -/
theorem not_begins_of_ends (ha : a.endsOperand) : ¬ (a.isOperator ∨ a = .openParen) := by
  cases a <;> simp_all [Token.endsOperand, Token.isOperator]

/-- Behind the end of an operand. -/
theorem neighbours_of_ends (ha : a.endsOperand)
    (hb : b.isOperator ∨ b = .closeParen ∨ (b = .openParen ∧ a.isNumber = false)) :
    Neighbours a b :=
  ⟨fun h => absurd h (not_begins_of_ends ha), fun _ => hb⟩

/-- Neighbours are never both numbers. -/
theorem hasAdjacentNumbers_of_chain {w : List Token} (hw : w.IsChain Neighbours) :
    hasAdjacentNumbers w = false := by
  induction w with
  | nil => rfl
  | cons a w ih =>
    cases w with
    | nil => rfl
    | cons b w =>
      obtain ⟨hab, hrest⟩ := List.isChain_cons_cons.1 hw
      rw [hasAdjacentNumbers, ih hrest, Bool.or_false]
      cases a with
      | number =>
        cases b with
        | number => exact absurd (hab.2 rfl) (by simp [Token.isOperator])
        | _ => rfl
      | _ => rfl

end Pairs

/-! ## Words of the grammar -/

namespace Placed

variable {scope : Scope} {w v : List Token}

theorem number (value : Quantity) : Placed scope [.number value] where
  nonempty := by simp
  first := by simp [Token.beginsOperand]
  last := by simp [Token.endsOperand]
  chain := .singleton _
  known := by simp
  balanced := rfl

theorem name {name : String} {binding : Binding} (hscope : scope name = some binding) :
    Placed scope [.name name] where
  nonempty := by simp
  first := by simp [Token.beginsOperand]
  last := by simp [Token.endsOperand]
  chain := .singleton _
  known := by simp [hscope]
  balanced := rfl

/-- A sign in front of an operand. -/
theorem sign {op : Operator} (hop : (Token.operator op).beginsOperand) (hw : Placed scope w) :
    Placed scope (.operator op :: w) where
  nonempty := by simp
  first := by simpa using hop
  last := by
    rw [List.getLast?_cons_of_ne_nil hw.nonempty]
    exact hw.last
  chain := List.isChain_cons.2 ⟨fun t ht => neighbours_operator op (hw.first t ht), hw.chain⟩
  known := by simpa using hw.known
  balanced := hw.balanced

theorem join (op : Operator) (hw : Placed scope w) (hv : Placed scope v) :
    Placed scope (w ++ .operator op :: v) where
  nonempty := by simp
  first := by
    rw [List.head?_append_of_ne_nil _ hw.nonempty]
    exact hw.first
  last := by
    -- the sequence ends as its right part does
    rw [List.getLast?_append_cons, List.getLast?_cons_of_ne_nil hv.nonempty]
    exact hv.last
  chain := by
    refine List.isChain_append.2 ⟨hw.chain, List.isChain_cons.2 ⟨fun t ht => ?_, hv.chain⟩, ?_⟩
    · exact neighbours_operator op (hv.first t ht)
    · intro a ha b hb
      cases hb
      exact neighbours_of_ends (hw.last a ha) (.inl rfl)
  known := by
    intro name hname
    simp only [List.mem_append, List.mem_cons, reduceCtorEq, false_or] at hname
    exact hname.elim (hw.known name) (hv.known name)
  balanced := by
    have hpass := parenthesisFault?_append 0 (.operator op :: v) hw.balanced
    rw [hpass]
    exact hv.balanced

theorem group (hw : Placed scope w) : Placed scope (.openParen :: (w ++ [.closeParen])) where
  nonempty := by simp
  first := by simp [Token.beginsOperand]
  last := by
    rw [← List.cons_append, List.getLast?_concat]
    simp [Token.endsOperand]
  chain := by
    refine List.isChain_cons.2 ⟨fun t ht => ?_, ?_⟩
    · rw [List.head?_append_of_ne_nil _ hw.nonempty] at ht
      exact neighbours_openParen (hw.first t ht)
    · refine List.isChain_append.2 ⟨hw.chain, .singleton _, fun a ha b hb => ?_⟩
      cases hb
      exact neighbours_of_ends (hw.last a ha) (.inr (.inl rfl))
  known := by simpa using hw.known
  balanced := parenthesisFault?_around (x := []) rfl hw.balanced rfl

/-- Parentheses may stand behind anything but a number. -/
theorem append_group (hw : Placed scope w) (hnumber : ∀ t ∈ w.getLast?, t.isNumber = false)
    (hv : Placed scope (.openParen :: v)) : Placed scope (w ++ .openParen :: v) where
  nonempty := by simp
  first := by
    rw [List.head?_append_of_ne_nil _ hw.nonempty]
    exact hw.first
  last := by
    rw [List.getLast?_append_of_ne_nil _ hv.nonempty]
    exact hv.last
  chain := by
    refine List.isChain_append.2 ⟨hw.chain, hv.chain, fun a ha b hb => ?_⟩
    -- the one new pair is that of the last token in front and the parenthesis
    cases hb
    exact neighbours_of_ends (hw.last a ha) (.inr (.inr ⟨rfl, hnumber a ha⟩))
  known := by
    intro name hname
    exact (List.mem_append.1 hname).elim (hw.known name) (hv.known name)
  balanced := by
    have hpass := parenthesisFault?_append 0 (.openParen :: v) hw.balanced
    rw [hpass]
    exact hv.balanced

/-- What is called ends in a name or in a parenthesis. -/
theorem last_of_callee {s : Nonterminal} {e : Expr} (hderives : Derives scope s w e)
    (hs : s = .callee) : ∀ t ∈ w.getLast?, t.isNumber = false := by
  cases hderives with
  | callee_name => simp [Token.isNumber]
  | callee_group =>
    intro t ht
    rw [← List.cons_append, List.getLast?_concat] at ht
    cases ht
    rfl
  | _ => exact absurd hs (by simp)

/-- Every word of the grammar is placed. -/
theorem of_derives {s : Nonterminal} {e : Expr} (hderives : Derives scope s w e) :
    Placed scope w := by
  -- the rules by what they write: nothing, an operator, a sign, a token, or parentheses
  induction hderives with
  | sum_term _ ih | term_product _ ih | term_tail _ ih | product_power _ ih | power_atom _ ih =>
    exact ih
  | sum_add _ _ _ ihleft ihright | term_multiply _ _ _ ihleft ihright
  | tail_power _ _ ihleft ihright | product_multiply _ _ _ ihleft ihright
  | power_power _ _ ihleft ihright => exact ihleft.join _ ihright
  | tail_plus _ ih | tail_minus _ ih => exact ih.sign rfl
  | atom_number value => exact number value
  | atom_name hscope | callee_name hscope => exact name hscope
  | atom_group _ ih | callee_group _ _ ih => exact ih.group
  | atom_call hcallee _ ihcallee ih =>
    exact ihcallee.append_group (last_of_callee hcallee rfl) ih.group

end Placed

/-! ## What a run has ahead of it

The state of a run, as far as its tokens go, is the token that was read last and the number of open
parentheses. What is ahead has to fit to both. -/

namespace Grammar

/-- What is left fits behind the token that was read last, with this many parentheses open. -/
structure Ahead (scope : Scope) (opened : Nat) (previous : Token) (c : Cursor) : Prop where
  chain : (previous :: c.tokens).IsChain Neighbours
  callees : (previous :: c.tokens).IsChain (NamesFunction scope)
  last : ∀ t ∈ (previous :: c.tokens).getLast?, t.endsOperand
  known : ∀ name, .name name ∈ c.tokens → ∃ binding, scope name = some binding
  balanced : parenthesisFault? opened c.tokens = none

namespace Ahead

variable {scope : Scope} {opened : Nat} {previous t : Token} {c : Cursor}

/-- Something has to come behind a token that ends no operand. -/
theorem rest_ne_nil (h : Ahead scope opened previous c) (hprevious : previous.endsOperand = false) :
    c.rest ≠ [] := by
  intro hnil
  have hends := h.last previous (by simp [Cursor.tokens, hnil])
  exact absurd (hprevious.symm.trans hends) (by simp)

theorem head (h : Ahead scope opened previous c) (hne : c.rest ≠ []) :
    Neighbours previous c.peek.token ∧ NamesFunction scope previous c.peek.token := by
  obtain ⟨hchain, hcallees, -⟩ := h
  rw [Cursor.tokens_eq_cons hne] at hchain hcallees
  exact ⟨(List.isChain_cons_cons.1 hchain).1, (List.isChain_cons_cons.1 hcallees).1⟩

/-- An argument comes next, so what has been read ends in the name of a function. -/
theorem callee (h : Ahead scope opened previous c) (hends : previous.endsOperand)
    (hopen : c.peek.token = .openParen) :
    ∃ name f, previous = .name name ∧ scope name = some (.function f) :=
  (h.head (Cursor.rest_ne_nil (by simp [hopen]))).2 hends hopen

/-- The next token is read. Its effect on the number of open parentheses is left to be said. -/
theorem advance {opened' : Nat} (h : Ahead scope opened previous c) (hne : c.rest ≠ [])
    (hbalanced : parenthesisFault? opened' c.advance.tokens = none) :
    Ahead scope opened' c.peek.token c.advance := by
  obtain ⟨hchain, hcallees, hlast, hknown, -⟩ := h
  rw [Cursor.tokens_eq_cons hne] at hchain hcallees hlast hknown
  refine ⟨(List.isChain_cons_cons.1 hchain).2, (List.isChain_cons_cons.1 hcallees).2, ?_,
    fun name hname => ?_, hbalanced⟩
  · rwa [List.getLast?_cons_cons] at hlast
  · exact hknown name (List.mem_cons_of_mem _ hname)

/-- A token other than a parenthesis is read. -/
theorem pass (h : Ahead scope opened previous c) (htok : c.peek.token = t) (hend : t ≠ .endOfInput)
    (hopen : t ≠ .openParen) (hclose : t ≠ .closeParen) : Ahead scope opened t c.advance := by
  subst htok
  have hne := Cursor.rest_ne_nil hend
  refine h.advance hne ?_
  have hbalanced := h.balanced
  rw [Cursor.tokens_eq_cons hne, parenthesisFault?] at hbalanced
  · exact hbalanced
  · exact hopen
  · exact hclose

theorem enter (h : Ahead scope opened previous c) (htok : c.peek.token = .openParen) :
    Ahead scope (opened + 1) .openParen c.advance := by
  have hne : c.rest ≠ [] := Cursor.rest_ne_nil (by simp [htok])
  have hbalanced := h.balanced
  rw [Cursor.tokens_eq_cons hne, htok, parenthesisFault?] at hbalanced
  rw [← htok]
  exact h.advance hne hbalanced

theorem leave (h : Ahead scope (opened + 1) previous c) (htok : c.peek.token = .closeParen) :
    Ahead scope opened .closeParen c.advance := by
  have hne : c.rest ≠ [] := Cursor.rest_ne_nil (by simp [htok])
  have hbalanced := h.balanced
  rw [Cursor.tokens_eq_cons hne, htok, parenthesisFault?, if_neg (by simp)] at hbalanced
  rw [← htok]
  exact h.advance hne hbalanced

/-- Behind a complete expression comes a closing parenthesis, if anything comes. -/
theorem peek_closeParen (h : Ahead scope opened previous c) (hends : previous.endsOperand)
    (hpow : nextPower c = 0) (hne : c.rest ≠ []) : c.peek.token = .closeParen := by
  rcases (h.head hne).1.2 hends with hop | hclose | ⟨hopen, -⟩
  · cases htok : c.peek.token with
    | operator op =>
      rw [nextPower_of_operator htok] at hpow
      cases op <;> exact absurd hpow (by decide)
    | closeParen => rfl
    | number | name | openParen | endOfInput =>
      rw [htok] at hop
      exact absurd hop (by simp [Token.isOperator])
  · exact hclose
  · rw [nextPower_of_openParen hopen] at hpow
    exact absurd hpow (by decide)

/-- Inside parentheses something has to come. -/
theorem peek_closeParen_inside (h : Ahead scope (opened + 1) previous c)
    (hends : previous.endsOperand) (hpow : nextPower c = 0) : c.peek.token = .closeParen := by
  refine h.peek_closeParen hends hpow fun hnil => ?_
  have hbalanced := h.balanced
  rw [Cursor.tokens, hnil, List.map_nil, parenthesisFault?, if_neg (by simp)] at hbalanced
  exact absurd hbalanced (by simp)

/-- Outside of all parentheses nothing can come. -/
theorem rest_eq_nil (h : Ahead scope 0 previous c) (hends : previous.endsOperand)
    (hpow : nextPower c = 0) : c.rest = [] := by
  by_contra hne
  have hbalanced := h.balanced
  rw [Cursor.tokens_eq_cons hne, h.peek_closeParen hends hpow hne, parenthesisFault?,
    if_pos rfl] at hbalanced
  exact absurd hbalanced (by simp)

end Ahead

/-- An expression has been read, and what is ahead fits to it: where an argument comes next, the
expression is the name of a function. -/
def Done (scope : Scope) (opened : Nat) (e : Expr) (c : Cursor) : Prop :=
  (∃ previous, previous.endsOperand ∧ Ahead scope opened previous c) ∧
    (c.peek.token = .openParen → ∃ id f, e = .identifier id ∧ id.binding = .function f)

/-- An operand has to come. -/
def Missing (scope : Scope) (opened : Nat) (c : Cursor) : Prop :=
  ∃ previous, (previous.isOperator ∨ previous = .openParen) ∧ Ahead scope opened previous c

/-- What is ahead of a call fits to it. The opening parenthesis of an argument has been read. -/
def Call.Ready (scope : Scope) (opened : Nat) : Call → Prop
  | .expression _ _ c | .operand _ c | .attach _ (.operator _) _ _ c => Missing scope opened c
  | .extend _ _ e _ c => Done scope opened e c
  | .attach _ .argument left _ c =>
    Missing scope (opened + 1) c ∧ ∃ id f, left = .identifier id ∧ id.binding = .function f

section Run

variable {scope : Scope} {opened : Nat} {c : Cursor}

theorem Missing.rest_ne_nil (h : Missing scope opened c) : c.rest ≠ [] := by
  obtain ⟨previous, hprevious, hahead⟩ := h
  refine hahead.rest_ne_nil ?_
  rcases hprevious with hop | rfl
  · cases previous with
    | operator => rfl
    | _ => exact absurd hop (by simp [Token.isOperator])
  · rfl

/-- Where an operand has to come, one begins. -/
theorem Missing.beginsOperand (h : Missing scope opened c) : c.peek.token.beginsOperand := by
  have hne := h.rest_ne_nil
  obtain ⟨previous, hprevious, hahead⟩ := h
  exact (hahead.head hne).1.1 hprevious

theorem Missing.operator {op : Operator} (h : Missing scope opened c)
    (htok : c.peek.token = .operator op) : Missing scope opened c.advance := by
  obtain ⟨previous, -, hahead⟩ := h
  exact ⟨_, .inl rfl, hahead.pass htok (by simp) (by simp) (by simp)⟩

theorem Missing.enter (h : Missing scope opened c) (htok : c.peek.token = .openParen) :
    Missing scope (opened + 1) c.advance := by
  obtain ⟨previous, -, hahead⟩ := h
  exact ⟨_, .inr rfl, hahead.enter htok⟩

/-- Where no argument comes next, it does not matter what has been read. -/
theorem Done.of_power {e e' : Expr} {minPower : Nat} (h : Done scope opened e c)
    (hpow : nextPower c ≤ minPower) (hmin : minPower ≤ 39) : Done scope opened e' c := by
  refine ⟨h.1, fun hopen => ?_⟩
  rw [nextPower_of_openParen hopen] at hpow
  exact absurd (Nat.le_trans hpow hmin) (by decide)

/-- The closing parenthesis is read. What ends in it takes no argument. -/
theorem Done.leave {e e' : Expr} (h : Done scope (opened + 1) e c)
    (hclose : c.peek.token = .closeParen) : Done scope opened e' c.advance := by
  obtain ⟨⟨previous, -, hahead⟩, -⟩ := h
  have hleft := hahead.leave hclose
  refine ⟨⟨_, rfl, hleft⟩, fun hopen => ?_⟩
  obtain ⟨name, f, hname, -⟩ := hleft.callee rfl hopen
  exact absurd hname (by simp)

/-- What comes next is attached: an operator, or an argument of what is the name of a function. -/
theorem Done.attach {depth : Nat} {e : Expr} {h : Nat} {link : Link} (hdone : Done scope opened e c)
    (hlink : c.peek.token.link? = some link) :
    (Call.attach depth link e h c.advance).Ready scope opened := by
  obtain ⟨⟨previous, -, hahead⟩, hcallee⟩ := hdone
  have htok := token_of_link hlink
  cases link with
  | operator op => exact ⟨_, .inl rfl, hahead.pass htok (by simp) (by simp) (by simp)⟩
  | argument => exact ⟨⟨_, .inr rfl, hahead.enter htok⟩, hcallee htok⟩

/-- A call that what is ahead fits to leaves behind what fits to its result. -/
theorem Parses.done {g : Grammar} {a : Call} {e : Expr} {h : Nat} {d : Cursor}
    (hrun : Parses g a e h d) (hready : a.Ready g.scope opened) : Done g.scope opened e d := by
  induction hrun generalizing opened with
  | expression _ _ _ ihop ihext => exact ihext (ihop hready)
  -- a number is no callee, so no argument may come behind it
  | number htok =>
    obtain ⟨previous, -, hahead⟩ := hready
    have hpassed := hahead.pass htok (by simp) (by simp) (by simp)
    refine ⟨⟨_, rfl, hpassed⟩, fun hopen => ?_⟩
    obtain ⟨name, f, hname, -⟩ := hpassed.callee rfl hopen
    exact absurd hname (by simp)
  | name htok hscope =>
    obtain ⟨previous, -, hahead⟩ := hready
    have hpassed := hahead.pass htok (by simp) (by simp) (by simp)
    refine ⟨⟨_, rfl, hpassed⟩, fun hopen => ?_⟩
    obtain ⟨name, f, hname, hfun⟩ := hpassed.callee rfl hopen
    cases hname
    cases hscope.symm.trans hfun
    exact ⟨_, f, rfl, rfl⟩
  | plus htok _ ih => exact ih (hready.operator htok)
  -- a negation is no name either, but what it took would have taken the argument
  | minus htok hexp _ ih =>
    exact (ih (hready.operator htok)).of_power (hexp.power_le rfl) (by decide)
  | group htok _ hclose ih => exact (ih (hready.enter htok)).leave hclose
  | stop => exact hready
  | link hlink _ _ _ ihatt ihext => exact ihext (ihatt (hready.attach hlink))
  | operator hexp _ ih =>
    exact (ih hready).of_power (hexp.power_le rfl) (rightPower_le _)
  | argument _ _ hclose _ ih => exact (ih hready.1).leave hclose

/-- Without a limit, a call that what is ahead fits to cannot fail. -/
theorem Fails.not_ready {a : Call} {fault : Fault} {d : Cursor}
    (hrun : Fails ⟨scope, none⟩ a fault d) (hready : a.Ready scope opened) : False := by
  induction hrun generalizing opened with
  | depth hadm | minusHeight _ _ hadm | rightHeight _ hadm | argumentHeight _ _ _ hadm =>
    -- there is no limit
    exact absurd hadm (by simp [admits])
  | operand _ _ ih => exact ih hready
  | extend _ hop _ ih => exact ih (hop.done hready)
  | unexpected htok => exact absurd hready.beginsOperand (by simp [htok])
  | unknown htok hscope =>
    have hne := hready.rest_ne_nil
    obtain ⟨previous, -, hahead⟩ := hready
    obtain ⟨binding, hbinding⟩ := hahead.known _ (by
      rw [Cursor.tokens_eq_cons hne, htok]
      exact List.mem_cons_self)
    exact absurd (hscope.symm.trans hbinding) (by simp)
  | plus htok _ ih | minus htok _ ih => exact ih (hready.operator htok)
  | group htok _ ih => exact ih (hready.enter htok)
  -- the expression ends where nothing goes on with it, and there the closing parenthesis stands
  | groupEnd htok hexp hclose =>
    obtain ⟨⟨previous, hends, hahead⟩, -⟩ := hexp.done (hready.enter htok)
    exact hclose (hahead.peek_closeParen_inside hends (Nat.le_zero.1 (hexp.power_le rfl)))
  | attach hlink _ _ ih => exact ih (hready.attach hlink)
  | again hlink _ hatt _ ih => exact ih (hatt.done (hready.attach hlink))
  | right _ ih => exact ih hready
  | notInvocable hleft =>
    obtain ⟨-, id, f, hid, -⟩ := hready
    exact hleft id hid
  | constant hconst =>
    obtain ⟨-, id, f, hid, hfun⟩ := hready
    cases hid
    exact absurd (hconst.symm.trans hfun) (by simp)
  | argument _ _ ih => exact ih hready.1
  | argumentEnd _ hexp hclose =>
    obtain ⟨⟨previous, hends, hahead⟩, -⟩ := hexp.done hready.1
    exact hclose (hahead.peek_closeParen_inside hends (Nat.le_zero.1 (hexp.power_le rfl)))

end Run

/-! ## Whole sequences -/

section Sequence

variable {scope : Scope} {source : String} {lexemes : List Lexeme}

/-- At its start, a run stands as if behind an opening parenthesis that is not counted. -/
theorem ready_of_placed (hplaced : Placed scope (lexemes.map Lexeme.token))
    (hfunction : (lexemes.map Lexeme.token).IsChain (NamesFunction scope)) :
    (Call.expression 0 0 (Cursor.ofLexemes source lexemes)).Ready scope 0 := by
  refine ⟨.openParen, .inr rfl, List.isChain_cons.2 ⟨fun t ht => ?_, hplaced.chain⟩,
    List.isChain_cons.2 ⟨fun t ht => ?_, hfunction⟩, ?_, hplaced.known, hplaced.balanced⟩
  · exact neighbours_openParen (hplaced.first t ht)
  · exact fun hends => absurd hends (by simp [Token.endsOperand])
  · have hne : (Cursor.ofLexemes source lexemes).tokens ≠ [] := hplaced.nonempty
    rw [List.getLast?_cons_of_ne_nil hne]
    exact hplaced.last

/-- Without a limit, a placed sequence has a tree if its arguments stand behind names of functions.
-/
theorem exists_parse_of_placed (hplaced : Placed scope (lexemes.map Lexeme.token))
    (hfunction : (lexemes.map Lexeme.token).IsChain (NamesFunction scope)) :
    ∃ e, Grammar.parse ⟨scope, none⟩ source lexemes = .ok e := by
  have hready : (Call.expression 0 0 (Cursor.ofLexemes source lexemes)).Ready scope 0 :=
    ready_of_placed hplaced hfunction
  rcases parses_or_fails ⟨scope, none⟩ (.expression 0 0 (Cursor.ofLexemes source lexemes)) with
    ⟨e, h, d, hrun⟩ | ⟨fault, d, hrun⟩
  · obtain ⟨⟨previous, hends, hahead⟩, -⟩ := hrun.done hready
    have hpow : nextPower d = 0 := Nat.le_zero.1 (hrun.power_le rfl)
    exact ⟨e, parse_eq_ok.2 ⟨h, d, hrun, hahead.rest_eq_nil hends hpow⟩⟩
  · exact (hrun.not_ready hready).elim

end Sequence

/-- A plus sign behind an operator is the sign of an operand. The check for operators objects. -/
theorem exists_parse_operatorFault (scope : Scope) (source : String) :
    ∃ lexemes e, Grammar.parse ⟨scope, some nestingLimit⟩ source lexemes = .ok e ∧
      operatorFault? (lexemes.map Lexeme.token) ≠ none := by
  let one : Token := .number ⟨1, none, false⟩
  let bare (t : Token) : Lexeme := ⟨t, "", 0, 0, Position.start⟩
  refine ⟨[one, .operator .add, .operator .add, one].map bare,
    .binary .add (.literal ⟨1, none, false⟩) (.literal ⟨1, none, false⟩), ?_,
    by simp [bare, one, operatorFault?, operatorPairFault?]⟩
  refine parse_eq_ok.2 ⟨_, _, .expression rfl (.number rfl) (.link rfl (by decide)
    (.operator (.expression rfl (.plus rfl (.expression rfl (.number rfl) (.stop ?_))) (.stop ?_))
      rfl) (.stop ?_)), rfl⟩
  -- behind the last number there is nothing
  all_goals exact Nat.zero_le _

/-- The parser accepts only sequences in which every token stands where one of its sort may stand,
so among the structural checks only the one for operators rejects anything it would accept; and that
one does. Where besides every argument stands directly behind the name of its function, the parser
finds a tree, or the nesting is too deep. -/
theorem parse_placed (scope : Scope) (source : String) (lexemes : List Lexeme) :
    let tokens := lexemes.map Lexeme.token
    let result := Grammar.parse ⟨scope, some nestingLimit⟩ source lexemes
    (∀ e, result = .ok e →
        Placed scope tokens ∧ hasAdjacentNumbers tokens = false ∧
          arrangementFault? tokens = operatorFault? tokens) ∧
      (∃ accepted e, Grammar.parse ⟨scope, some nestingLimit⟩ source accepted = .ok e ∧
        operatorFault? (accepted.map Lexeme.token) ≠ none) ∧
      (Placed scope tokens → tokens.IsChain (NamesFunction scope) →
        (∃ e, result = .ok e) ∨ result = .error .nestingTooDeep) := by
  intro tokens result
  refine ⟨?_, exists_parse_operatorFault scope source, ?_⟩
  · intro e hparse
    have hplaced : Placed scope tokens := .of_derives (derives_of_parse hparse)
    have hnumbers := hasAdjacentNumbers_of_chain hplaced.chain
    refine ⟨hplaced, hnumbers, ?_⟩
    -- the first and the last check find nothing, so the one for operators is left
    rw [arrangementFault?, hnumbers, if_neg (by simp), hplaced.balanced, Option.or_none]
  · intro hplaced hfunction
    obtain ⟨e, hparse⟩ : ∃ e, Grammar.parse ⟨scope, none⟩ source lexemes = .ok e :=
      exists_parse_of_placed hplaced hfunction
    rcases parse_cutShort ⟨scope, some nestingLimit⟩ source lexemes with heq | hdeep
    · exact .inl ⟨e, heq.trans hparse⟩
    · exact .inr hdeep

/-- In `f(x)` every token stands where it may, and the argument belongs to a function. -/
theorem parse_placed_call :
    let scope : Scope := fun name =>
      if name = "f" then some (.function ⟨id, false⟩) else some (.constant 2)
    let lexemes : List Lexeme :=
      [⟨.name "f", "f", 0, 1, ⟨1, 1⟩⟩, ⟨.openParen, "(", 1, 2, ⟨1, 2⟩⟩,
        ⟨.name "x", "x", 2, 3, ⟨1, 3⟩⟩, ⟨.closeParen, ")", 3, 4, ⟨1, 4⟩⟩]
    let e : Expr := .call ⟨"f", .function ⟨id, false⟩⟩ (.identifier ⟨"x", .constant 2⟩)
    Grammar.parse ⟨scope, some nestingLimit⟩ "f(x)" lexemes = .ok e ∧
      Placed scope (lexemes.map Lexeme.token) ∧
      (lexemes.map Lexeme.token).IsChain (NamesFunction scope) ∧
      ((∃ e, Grammar.parse ⟨scope, some nestingLimit⟩ "f(x)" lexemes = .ok e) ∨
        Grammar.parse ⟨scope, some nestingLimit⟩ "f(x)" lexemes = .error .nestingTooDeep) := by
  intro scope lexemes e
  have hparse : Grammar.parse ⟨scope, some nestingLimit⟩ "f(x)" lexemes = .ok e := by cbv
  have hfunction : (lexemes.map Lexeme.token).IsChain (NamesFunction scope) := by
    simp [lexemes, NamesFunction, scope, Token.endsOperand]
  obtain ⟨hplaced, -, hparses⟩ := parse_placed scope "f(x)" lexemes
  exact ⟨hparse, (hplaced e hparse).1, hfunction, hparses (hplaced e hparse).1 hfunction⟩

end Grammar

end UnitCalc
