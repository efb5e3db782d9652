import Mathlib
import UnitCalc.Proofs.Parse.Failure
import UnitCalc.Proofs.Parse.Nesting
import UnitCalc.Proofs.Reading

/-!
# More lexemes behind a sequence

What a run does depends on the lexemes that it has seen, one lexeme ahead included. So a run on some
lexemes is compared with the same run when other lexemes stand behind them.

* `Parses.extended`: a success that stops in front of some lexeme stays what it is, whatever is
  added behind. One that stops at the end stays if nothing in the addition goes on with it.
* `Fails.extended`: a fault stays if it was found before the end of the input was missed. The limit
  on nesting is left out, since it says nothing about the lexemes.
* `exists_completion`: a run that misses something at the end is a success as soon as a number, if
  one is missing, and the closing parentheses of everything that is open are added.
* `parse_correctPrefix`: the same for whole sequences.
-/

namespace UnitCalc

/-! ## Cursors and calls with more lexemes -/

namespace Cursor

/-- The cursor when the lexemes `q` stand behind all others. -/
def extended (source : String) (q : List Lexeme) (c : Cursor) : Cursor :=
  ⟨source, c.rest ++ q, c.taken⟩

variable {source : String} {q : List Lexeme} {c : Cursor}

theorem peek_extended (hne : c.rest ≠ []) : (c.extended source q).peek = c.peek := by
  obtain ⟨source', rest, taken⟩ := c
  cases rest with
  | nil => exact absurd rfl hne
  | cons l rest => rfl

theorem advance_extended (hne : c.rest ≠ []) :
    (c.extended source q).advance = c.advance.extended source q := by
  obtain ⟨source', rest, taken⟩ := c
  cases rest with
  | nil => exact absurd rfl hne
  | cons l rest => rfl

/-- A cursor that shows a token shows it with more lexemes behind as well. -/
theorem extended_of_token {t : Token} (htok : c.peek.token = t) (ht : t ≠ .endOfInput) :
    (c.extended source q).peek.token = t ∧
      (c.extended source q).advance = c.advance.extended source q := by
  have hne : c.rest ≠ [] := rest_ne_nil (by rw [htok]; exact ht)
  exact ⟨by rw [peek_extended hne, htok], advance_extended hne⟩

theorem peek_mem (hne : c.rest ≠ []) : c.peek ∈ c.rest := by
  obtain ⟨source', rest, taken⟩ := c
  cases rest with
  | nil => exact absurd rfl hne
  | cons l rest => exact List.mem_cons_self

end Cursor

namespace Grammar

namespace Call

/-- Where the call begins to read. -/
def cursor : Call → Cursor
  | expression _ _ c | operand _ c | extend _ _ _ _ c | attach _ _ _ _ c => c

/-- The same call when the lexemes `q` stand behind all others. -/
def extended (source : String) (q : List Lexeme) : Call → Call
  | expression depth minPower c => expression depth minPower (c.extended source q)
  | operand depth c => operand depth (c.extended source q)
  | extend depth minPower e h c => extend depth minPower e h (c.extended source q)
  | attach depth link left h c => attach depth link left h (c.extended source q)

end Call

/-- No expression goes on with the first of the lexemes. -/
def Stops (q : List Lexeme) : Prop := ∀ l ∈ q.head?, l.token.link? = none

/-- Nothing binds to what is in front of such lexemes. -/
theorem nextPower_of_stops {c : Cursor} (h : Stops c.rest) : nextPower c = 0 := by
  apply nextPower_of_no_link
  obtain ⟨source, rest, taken⟩ := c
  cases rest with
  | nil => rfl
  | cons l rest => exact h l rfl

variable {g : Grammar} {a : Call} {e : Expr} {h : Nat} {d : Cursor} {fault : Fault}

/-! ## Successes -/

/-- A run leaves an end of the lexemes it began with. -/
theorem Parses.rest_suffix (hrun : Parses g a e h d) : d.rest <:+ a.cursor.rest := by
  induction hrun with
  | expression _ _ _ ihop ihext => exact ihext.trans ihop
  | number | name => exact List.tail_suffix _
  | plus _ _ ih | minus _ _ _ ih => exact ih.trans (List.tail_suffix _)
  | group _ _ _ ih => exact (List.tail_suffix _).trans (ih.trans (List.tail_suffix _))
  | stop => exact List.suffix_refl _
  | link _ _ _ _ ihatt ihext => exact ihext.trans (ihatt.trans (List.tail_suffix _))
  | operator _ _ ih => exact ih
  | argument _ _ _ _ ih => exact (List.tail_suffix _).trans ih

/-- An extension that begins at the end stays there. -/
theorem Parses.rest_eq_nil {depth minPower : Nat} {left : Expr} {k : Nat} {c : Cursor}
    (hrun : Parses g (.extend depth minPower left k c) e h d) (hnil : c.rest = []) :
    d.rest = [] := by
  have hsuffix : d.rest <:+ c.rest := hrun.rest_suffix
  rw [hnil] at hsuffix
  exact List.suffix_nil.1 hsuffix

/-- Where something is attached, there is a lexeme. -/
theorem rest_ne_nil_of_link {c : Cursor} {link : Link} (hlink : c.peek.token.link? = some link) :
    c.rest ≠ [] := by
  apply Cursor.rest_ne_nil
  intro hend
  rw [hend] at hlink
  exact absurd hlink (by simp [Token.link?])

section Extended

variable (source : String) {q : List Lexeme}

/-- A success stays what it is when lexemes are added behind. If it stopped at the end, it must not
go on with the first of them. -/
theorem Parses.extended (hrun : Parses g a e h d) (hq : d.rest = [] → Stops q) :
    Parses g (a.extended source q) e h (d.extended source q) := by
  -- a closing parenthesis that has been read was no end, so what is in front of it need not stop
  have hmore {c : Cursor} {t : Token} (htok : c.peek.token = t) (ht : t ≠ .endOfInput)
      (hnil : c.rest = []) : Stops q :=
    absurd hnil (Cursor.rest_ne_nil (by rw [htok]; exact ht))
  induction hrun with
  -- an operand at the end is one that nothing was attached to
  | expression hadm _ hext ihop ihext =>
    exact .expression hadm (ihop fun hnil => hq (hext.rest_eq_nil hnil)) (ihext hq)
  | number htok =>
    obtain ⟨hpeek, hadvance⟩ := Cursor.extended_of_token htok (by simp)
    rw [← hadvance]
    exact .number hpeek
  | name htok hscope =>
    obtain ⟨hpeek, hadvance⟩ := Cursor.extended_of_token htok (by simp)
    rw [← hadvance]
    exact .name hpeek hscope
  | plus htok _ ih =>
    obtain ⟨hpeek, hadvance⟩ := Cursor.extended_of_token htok (by simp)
    refine .plus hpeek ?_
    rw [hadvance]
    exact ih hq
  | minus htok _ hadm ih =>
    obtain ⟨hpeek, hadvance⟩ := Cursor.extended_of_token htok (by simp)
    refine .minus hpeek ?_ hadm
    rw [hadvance]
    exact ih hq
  | group htok _ hclose ih =>
    obtain ⟨hpeek, hadvance⟩ := Cursor.extended_of_token htok (by simp)
    obtain ⟨hpeek', hadvance'⟩ := Cursor.extended_of_token hclose (by simp)
    rw [← hadvance']
    refine .group hpeek ?_ hpeek'
    rw [hadvance]
    exact ih (hmore hclose (by simp))
  | @stop _ _ c _ _ hpow =>
    refine .stop ?_
    by_cases hrest : c.rest = []
    · -- what is added now comes next
      rw [nextPower_of_stops]
      · exact Nat.zero_le _
      · rw [Cursor.extended, hrest]
        exact hq hrest
    · rw [nextPower, Cursor.peek_extended hrest]
      exact hpow
  | link hlink hpow _ hext ihatt ihext =>
    have hrest := rest_ne_nil_of_link hlink
    refine .link (by rw [Cursor.peek_extended hrest, hlink]) hpow ?_ (ihext hq)
    rw [Cursor.advance_extended hrest]
    exact ihatt fun hnil => hq (hext.rest_eq_nil hnil)
  | operator _ hadm ih => exact .operator (ih hq) hadm
  | argument hfun _ hclose hadm ih =>
    obtain ⟨hpeek, hadvance⟩ := Cursor.extended_of_token hclose (by simp)
    rw [← hadvance]
    exact .argument hfun (ih (hmore hclose (by simp))) hpeek hadm

/-! ## Faults -/

/-- The fault of an end of the input where a lexeme is missing. -/
def endFault : Fault := .unexpectedToken "<<EOF>>"

theorem unexpected_atEnd {c : Cursor} (hnil : c.rest = []) : c.peek.unexpected = endFault := by
  rw [Cursor.peek, hnil]
  rfl

/-- An extension has nothing to fail on at the end. -/
theorem Fails.rest_ne_nil {depth minPower : Nat} {left : Expr} {k : Nat} {c : Cursor}
    (hrun : Fails g (.extend depth minPower left k c) fault d) : c.rest ≠ [] := by
  cases hrun with
  | attach hlink | again hlink => exact rest_ne_nil_of_link hlink

/-- A fault stays what it is when lexemes are added behind, unless the run missed something at the
end. Everything the run has looked at was a lexeme, so it looks at the same lexemes again. -/
theorem Fails.extended (hrun : Fails g a fault d) (hend : fault ≠ endFault)
    (hdeep : fault ≠ .nestingTooDeep) :
    Fails g (a.extended source q) fault (d.extended source q) := by
  induction hrun with
  | depth | minusHeight | rightHeight | argumentHeight => exact absurd rfl hdeep
  | operand hadm _ ih => exact .operand hadm (ih hend hdeep)
  | extend hadm hop hext ih =>
    exact .extend hadm (hop.extended source fun hnil => absurd hnil hext.rest_ne_nil)
      (ih hend hdeep)
  -- the unexpected lexeme was no end, since the fault is not that of the end
  | @unexpected depth c htok =>
    have hrest := mt unexpected_atEnd hend
    have hfails : Fails g (.operand depth (c.extended source q)) _ _ :=
      .unexpected (by rw [Cursor.peek_extended hrest, htok])
    rwa [Cursor.peek_extended hrest, Cursor.advance_extended hrest] at hfails
  | @unknown depth c name htok hscope =>
    have hrest : c.rest ≠ [] := Cursor.rest_ne_nil (by simp [htok])
    have hfails : Fails g (.operand depth (c.extended source q)) _ _ :=
      .unknown (by rw [Cursor.peek_extended hrest, htok]) hscope
    rwa [Cursor.peek_extended hrest, Cursor.advance_extended hrest] at hfails
  | plus htok _ ih =>
    obtain ⟨hpeek, hadvance⟩ := Cursor.extended_of_token htok (by simp)
    refine .plus hpeek ?_
    rw [hadvance]
    exact ih hend hdeep
  | minus htok _ ih =>
    obtain ⟨hpeek, hadvance⟩ := Cursor.extended_of_token htok (by simp)
    refine .minus hpeek ?_
    rw [hadvance]
    exact ih hend hdeep
  | group htok _ ih =>
    obtain ⟨hpeek, hadvance⟩ := Cursor.extended_of_token htok (by simp)
    refine .group hpeek ?_
    rw [hadvance]
    exact ih hend hdeep
  -- the expression in parentheses stopped in front of a lexeme, so it stops there again
  | @groupEnd depth c d _ _ htok hexp hclose =>
    obtain ⟨hpeek, hadvance⟩ := Cursor.extended_of_token htok (by simp)
    have hrest := mt unexpected_atEnd hend
    have hexpression := hexp.extended source (q := q) fun hnil => absurd hnil hrest
    rw [Call.extended, ← hadvance] at hexpression
    have hfails := Fails.groupEnd hpeek hexpression
      (by rw [Cursor.peek_extended hrest]; exact hclose)
    rwa [Cursor.peek_extended hrest, Cursor.advance_extended hrest] at hfails
  | attach hlink hpow _ ih =>
    have hrest := rest_ne_nil_of_link hlink
    refine .attach (by rw [Cursor.peek_extended hrest, hlink]) hpow ?_
    rw [Cursor.advance_extended hrest]
    exact ih hend hdeep
  | again hlink hpow hatt hext ih =>
    have hrest := rest_ne_nil_of_link hlink
    have hattachment := hatt.extended source (q := q) fun hnil => absurd hnil hext.rest_ne_nil
    refine .again (by rw [Cursor.peek_extended hrest, hlink]) hpow ?_ (ih hend hdeep)
    rw [Cursor.advance_extended hrest]
    exact hattachment
  | right _ ih => exact .right (ih hend hdeep)
  | notInvocable hleft => exact .notInvocable hleft
  | constant hconst => exact .constant hconst
  | argument hfun _ ih => exact .argument hfun (ih hend hdeep)
  | @argumentEnd depth callee f argument h h' c d hfun hexp hclose =>
    have hrest := mt unexpected_atEnd hend
    have hexpression := hexp.extended source (q := q) fun hnil => absurd hnil hrest
    have hfails := Fails.argumentEnd (h := h) hfun hexpression
      (by rw [Cursor.peek_extended hrest]; exact hclose)
    rwa [Cursor.peek_extended hrest, Cursor.advance_extended hrest] at hfails

end Extended

/-! ## Completing a run

A run that misses something at the end of the lexemes has open parentheses, or it stands in front of
a missing operand. What it lacks is added from the inside to the outside: the fault goes up through
the open calls, and each group and each call on the way adds one closing parenthesis. -/

/-- At most one number, and closing parentheses behind it. -/
def IsCompletion (q : List Lexeme) : Prop :=
  ∃ (number : Option Quantity) (n : Nat),
    q.map Lexeme.token = (number.map Token.number).toList ++ List.replicate n .closeParen

/-- A number that can be added anywhere. -/
def oneLexeme : Lexeme := ⟨.number ⟨1, none, false⟩, "1", 0, 0, Position.start⟩

/-- A closing parenthesis that can be added anywhere. -/
def closingLexeme : Lexeme := ⟨.closeParen, ")", 0, 0, Position.start⟩

theorem isCompletion_number : IsCompletion [oneLexeme] := ⟨some ⟨1, none, false⟩, 0, rfl⟩

theorem isCompletion_closing : IsCompletion [closingLexeme] := ⟨none, 1, rfl⟩

/-- One more closing parenthesis completes what is in one more pair. -/
theorem IsCompletion.append_closing {q : List Lexeme} (hq : IsCompletion q) :
    IsCompletion (q ++ [closingLexeme]) := by
  obtain ⟨number, n, htokens⟩ := hq
  refine ⟨number, n + 1, ?_⟩
  rw [List.map_append, htokens, List.replicate_succ', List.append_assoc]
  rfl

theorem stops_closing (v : List Lexeme) : Stops (closingLexeme :: v) := by
  intro l hl
  cases hl
  rfl

/-- With `q` behind the lexemes the call succeeds, and it stops behind `q`. What comes then has to
stop it. -/
def Completes (g : Grammar) (a : Call) (q : List Lexeme) : Prop :=
  ∀ source v, Stops v → ∃ e h d, Parses g (a.extended source (q ++ v)) e h d ∧ d.rest = v

namespace Completes

variable {scope : Scope} {q : List Lexeme} {depth minPower : Nat} {c : Cursor} {left : Expr}
  {height : Nat}

theorem operand (hq : Completes ⟨scope, none⟩ (.operand (depth + 1) c) q) :
    Completes ⟨scope, none⟩ (.expression depth minPower c) q := by
  intro source v hv
  obtain ⟨e, h, d, hrun, hd⟩ := hq source v hv
  -- behind the operand stands what stops the whole, so nothing is attached to it
  have hpow : nextPower d = 0 := nextPower_of_stops (hd ▸ hv)
  exact ⟨e, h, d, .expression rfl hrun (.stop (hpow ▸ Nat.zero_le _)), hd⟩

theorem extend (hop : Parses ⟨scope, none⟩ (.operand (depth + 1) c) e h d) (hne : d.rest ≠ [])
    (hq : Completes ⟨scope, none⟩ (.extend (depth + 1) minPower e h d) q) :
    Completes ⟨scope, none⟩ (.expression depth minPower c) q := by
  intro source v hv
  obtain ⟨e', h', d', hrun, hd'⟩ := hq source v hv
  exact ⟨e', h', d', .expression rfl (hop.extended source fun hnil => absurd hnil hne) hrun, hd'⟩

/-- A missing operand is completed by a number. -/
theorem missing (hnil : c.rest = []) : Completes ⟨scope, none⟩ (.operand depth c) [oneLexeme] := by
  intro source v hv
  have htokens : (c.extended source ([oneLexeme] ++ v)).rest = oneLexeme :: v := by
    rw [Cursor.extended, hnil]
    rfl
  refine ⟨.literal ⟨1, none, false⟩, 1, _, .number ?_, ?_⟩
  · rw [Cursor.peek, htokens]
    rfl
  · rw [Cursor.advance, htokens]
    rfl

theorem plus (htok : c.peek.token = .operator .add)
    (hq : Completes ⟨scope, none⟩ (.expression depth signPower c.advance) q) :
    Completes ⟨scope, none⟩ (.operand depth c) q := by
  intro source v hv
  obtain ⟨e, h, d, hrun, hd⟩ := hq source v hv
  obtain ⟨hpeek, hadvance⟩ := Cursor.extended_of_token htok (by simp)
  rw [Call.extended, ← hadvance] at hrun
  exact ⟨e, h, d, .plus hpeek hrun, hd⟩

theorem minus (htok : c.peek.token = .operator .subtract)
    (hq : Completes ⟨scope, none⟩ (.expression depth signPower c.advance) q) :
    Completes ⟨scope, none⟩ (.operand depth c) q := by
  intro source v hv
  obtain ⟨e, h, d, hrun, hd⟩ := hq source v hv
  obtain ⟨hpeek, hadvance⟩ := Cursor.extended_of_token htok (by simp)
  rw [Call.extended, ← hadvance] at hrun
  exact ⟨_, _, d, .minus hpeek hrun rfl, hd⟩

/-- A closing parenthesis is added behind the expression in front of it. -/
theorem closed (hq : Completes ⟨scope, none⟩ (.expression depth 0 c) q) (source : String)
    (v : List Lexeme) :
    ∃ e h d, Parses ⟨scope, none⟩
        (.expression depth 0 (c.extended source (q ++ [closingLexeme] ++ v))) e h d ∧
      d.peek.token = .closeParen ∧ d.advance.rest = v := by
  obtain ⟨e, h, d, hrun, hd⟩ := hq source (closingLexeme :: v) (stops_closing v)
  refine ⟨e, h, d, ?_, ?_, ?_⟩
  · rw [List.append_assoc]
    exact hrun
  · rw [Cursor.peek, hd]
    rfl
  · rw [Cursor.advance, hd]
    rfl

/-- What completes the expression in parentheses completes the group, with one more closing
parenthesis. -/
theorem group (htok : c.peek.token = .openParen)
    (hq : Completes ⟨scope, none⟩ (.expression depth 0 c.advance) q) :
    Completes ⟨scope, none⟩ (.operand depth c) (q ++ [closingLexeme]) := by
  intro source v _
  obtain ⟨e, h, d, hrun, hclose, hd⟩ := hq.closed source v
  obtain ⟨hpeek, hadvance⟩ := Cursor.extended_of_token htok (by simp)
  rw [← hadvance] at hrun
  exact ⟨e, h, _, .group hpeek hrun hclose, hd⟩

/-- What completes the argument completes the call, with one more closing parenthesis. -/
theorem argument {callee : Identifier} {f : UnaryFunction} (hfun : callee.binding = .function f)
    (hq : Completes ⟨scope, none⟩ (.expression depth 0 c) q) :
    Completes ⟨scope, none⟩ (.attach depth .argument (.identifier callee) height c)
      (q ++ [closingLexeme]) := by
  intro source v _
  obtain ⟨e, h, d, hrun, hclose, hd⟩ := hq.closed source v
  exact ⟨_, _, _, .argument hfun hrun hclose rfl, hd⟩

/-- An expression that ends with the lexemes is complete, so only the parenthesis is missing. -/
theorem finished (hexp : Parses ⟨scope, none⟩ (.expression depth minPower c) e h d)
    (hnil : d.rest = []) : Completes ⟨scope, none⟩ (.expression depth minPower c) [] := by
  intro source v hv
  refine ⟨e, h, _, hexp.extended source fun _ => hv, ?_⟩
  rw [Cursor.extended, hnil]
  rfl

theorem attach {link : Link} (hlink : c.peek.token.link? = some link)
    (hpow : minPower < link.bindingPower)
    (hq : Completes ⟨scope, none⟩ (.attach depth link left height c.advance) q) :
    Completes ⟨scope, none⟩ (.extend depth minPower left height c) q := by
  intro source v hv
  obtain ⟨e, h, d, hrun, hd⟩ := hq source v hv
  have hne := rest_ne_nil_of_link hlink
  have hnext : nextPower d = 0 := nextPower_of_stops (hd ▸ hv)
  rw [Call.extended, ← Cursor.advance_extended hne] at hrun
  exact ⟨e, h, d, .link (by rw [Cursor.peek_extended hne, hlink]) hpow hrun
    (.stop (hnext ▸ Nat.zero_le _)), hd⟩

theorem again {link : Link} (hlink : c.peek.token.link? = some link)
    (hpow : minPower < link.bindingPower)
    (hatt : Parses ⟨scope, none⟩ (.attach depth link left height c.advance) e h d)
    (hne : d.rest ≠ []) (hq : Completes ⟨scope, none⟩ (.extend depth minPower e h d) q) :
    Completes ⟨scope, none⟩ (.extend depth minPower left height c) q := by
  intro source v hv
  obtain ⟨e', h', d', hrun, hd'⟩ := hq source v hv
  have hmore := rest_ne_nil_of_link hlink
  have hattachment := hatt.extended source (q := q ++ v) fun hnil => absurd hnil hne
  rw [Call.extended, ← Cursor.advance_extended hmore] at hattachment
  exact ⟨e', h', d', .link (by rw [Cursor.peek_extended hmore, hlink]) hpow hattachment hrun, hd'⟩

theorem right {op : Operator} (hq : Completes ⟨scope, none⟩ (.expression depth op.rightPower c) q) :
    Completes ⟨scope, none⟩ (.attach depth (.operator op) left height c) q := by
  intro source v hv
  obtain ⟨e, h, d, hrun, hd⟩ := hq source v hv
  exact ⟨_, _, d, .operator hrun rfl, hd⟩

end Completes

/-- No lexeme in front of the cursor could be taken for the end of the input. -/
def NoEnd (c : Cursor) : Prop := ∀ l ∈ c.rest, l.unexpected ≠ endFault

theorem NoEnd.of_suffix {c d : Cursor} (hc : NoEnd c) (hsuffix : d.rest <:+ c.rest) : NoEnd d :=
  fun l hl => hc l (hsuffix.subset hl)

theorem NoEnd.advance {c : Cursor} (hc : NoEnd c) : NoEnd c.advance :=
  hc.of_suffix (List.tail_suffix _)

theorem NoEnd.rest_eq_nil {c : Cursor} (hc : NoEnd c) (hend : c.peek.unexpected = endFault) :
    c.rest = [] := by
  by_contra hne
  exact hc _ (Cursor.peek_mem hne) hend

/-- A run that misses something at the end can be completed. The number, if there is one, goes where
an operand was missed, and every open parenthesis on the way out adds a closing one. -/
theorem exists_completion {scope : Scope} (hrun : Fails ⟨scope, none⟩ a fault d)
    (hend : fault = endFault) (hown : NoEnd a.cursor) :
    ∃ q, IsCompletion q ∧ Completes ⟨scope, none⟩ a q := by
  induction hrun with
  | depth hadm | minusHeight _ _ hadm | rightHeight _ hadm | argumentHeight _ _ _ hadm =>
    -- there is no limit
    exact absurd hadm (by simp [admits])
  | unknown | notInvocable | constant => exact absurd hend (by simp [endFault])
  | operand _ _ ih =>
    obtain ⟨q, hshape, hq⟩ := ih hend hown
    exact ⟨q, hshape, hq.operand⟩
  | extend _ hop hext ih =>
    obtain ⟨q, hshape, hq⟩ := ih hend (hown.of_suffix hop.rest_suffix)
    exact ⟨q, hshape, .extend hop hext.rest_ne_nil hq⟩
  -- the innermost call: an operand is missed, and nothing else
  | unexpected =>
    exact ⟨_, isCompletion_number, .missing (hown.rest_eq_nil hend)⟩
  | plus htok _ ih =>
    obtain ⟨q, hshape, hq⟩ := ih hend hown.advance
    exact ⟨q, hshape, hq.plus htok⟩
  | minus htok _ ih =>
    obtain ⟨q, hshape, hq⟩ := ih hend hown.advance
    exact ⟨q, hshape, hq.minus htok⟩
  | group htok _ ih =>
    obtain ⟨q, hshape, hq⟩ := ih hend hown.advance
    exact ⟨_, hshape.append_closing, hq.group htok⟩
  -- the innermost call: the parenthesis is missed behind a complete expression
  | groupEnd htok hexp _ =>
    have hnil := (hown.advance.of_suffix hexp.rest_suffix).rest_eq_nil hend
    exact ⟨_, isCompletion_closing, (Completes.finished hexp hnil).group htok⟩
  | attach hlink hpow _ ih =>
    obtain ⟨q, hshape, hq⟩ := ih hend hown.advance
    exact ⟨q, hshape, hq.attach hlink hpow⟩
  | again hlink hpow hatt hext ih =>
    obtain ⟨q, hshape, hq⟩ := ih hend (hown.advance.of_suffix hatt.rest_suffix)
    exact ⟨q, hshape, .again hlink hpow hatt hext.rest_ne_nil hq⟩
  | right _ ih =>
    obtain ⟨q, hshape, hq⟩ := ih hend hown
    exact ⟨q, hshape, hq.right⟩
  | argument hfun _ ih =>
    obtain ⟨q, hshape, hq⟩ := ih hend hown
    exact ⟨_, hshape.append_closing, hq.argument hfun⟩
  | argumentEnd hfun hexp _ =>
    have hnil := (hown.of_suffix hexp.rest_suffix).rest_eq_nil hend
    exact ⟨_, isCompletion_closing, (Completes.finished hexp hnil).argument hfun⟩

/-! ## Whole sequences -/

/-- A fault of a sequence that is not one of its end is a fault of every longer sequence. -/
theorem parse_append_of_error {source source' : String} {p : List Lexeme} (q : List Lexeme)
    (hparse : g.parse source p = .error fault) (hend : fault ≠ endFault)
    (hdeep : fault ≠ .nestingTooDeep) : g.parse source' (p ++ q) = .error fault := by
  rcases parse_eq_error.1 hparse with ⟨d, hrun⟩ | ⟨e, h, d, hrun, hmore, rfl⟩
  · exact parse_of_fails (hrun.extended source' hend hdeep)
  · -- what is left over is still left over
    have hextended := hrun.extended source' (q := q) fun hnil => absurd hnil hmore
    have hpeek : (d.extended source' q).peek = d.peek := Cursor.peek_extended hmore
    rw [← hpeek]
    exact parse_of_leftover hextended (by simp [Cursor.extended, hmore])

/-- Without a limit, a sequence that lacks something at its end can be completed. -/
theorem exists_parse_append {scope : Scope} {source : String} {p : List Lexeme}
    (hown : ∀ l ∈ p, l.unexpected ≠ endFault)
    (hparse : Grammar.parse ⟨scope, none⟩ source p = .error endFault) :
    ∃ q, IsCompletion q ∧ ∀ source', ∃ e, Grammar.parse ⟨scope, none⟩ source' (p ++ q) = .ok e := by
  rcases parse_eq_error.1 hparse with ⟨d, hrun⟩ | ⟨e, h, d, hrun, hmore, hfault⟩
  · obtain ⟨q, hshape, hq⟩ := exists_completion hrun rfl hown
    refine ⟨q, hshape, fun source' => ?_⟩
    obtain ⟨e, h, d', hrun', hd'⟩ := hq source' [] (by simp [Stops])
    rw [List.append_nil] at hrun'
    exact ⟨e, parse_eq_ok.2 ⟨h, d', hrun', hd'⟩⟩
  · have hleft : d.peek ∈ p := hrun.rest_suffix.subset (Cursor.peek_mem hmore)
    exact absurd hfault.symm (hown _ hleft)

/-- A fault in front of some lexeme is a fault whatever comes behind, and the same one. A sequence
that only lacks something at its end can be completed by at most one number and closing parentheses.
The end is told from a lexeme by its text, so no lexeme may have that text, nor be an end itself. -/
theorem parse_correctPrefix (scope : Scope) (p : List Lexeme) :
    (∀ source fault, Grammar.parse ⟨scope, some nestingLimit⟩ source p = .error fault →
      fault ≠ .unexpectedToken "<<EOF>>" → fault ≠ .nestingTooDeep →
        ∀ source' q, Grammar.parse ⟨scope, some nestingLimit⟩ source' (p ++ q) = .error fault) ∧
      ((∀ l ∈ p, l.token ≠ .endOfInput ∧ l.text ≠ "<<EOF>>") →
        ∀ source, Grammar.parse ⟨scope, some nestingLimit⟩ source p =
            .error (.unexpectedToken "<<EOF>>") →
          ∃ q : List Lexeme,
            (∃ (number : Option Quantity) (n : Nat),
              q.map Lexeme.token =
                (number.map Token.number).toList ++ List.replicate n .closeParen) ∧
            ∀ source',
              (∃ e, Grammar.parse ⟨scope, some nestingLimit⟩ source' (p ++ q) = .ok e) ∨
                Grammar.parse ⟨scope, some nestingLimit⟩ source' (p ++ q) =
                  .error .nestingTooDeep) := by
  refine ⟨fun source fault hparse hend hdeep source' q => parse_append_of_error q hparse hend hdeep,
    fun hp source hparse => ?_⟩
  -- no lexeme is shown like the end, so a fault of the end is found at the end
  have hown : ∀ l ∈ p, l.unexpected ≠ endFault := by
    intro l hl hend
    obtain ⟨htok, htext⟩ := hp l hl
    have hshown : l.shown = l.text := by
      unfold Lexeme.shown
      split
      · rename_i heq
        exact absurd heq htok
      · rfl
    rw [Lexeme.unexpected, hshown, endFault] at hend
    exact htext (Fault.unexpectedToken.inj hend)
  -- the limit is not the reason, so the same is missing without it
  have hunlimited : Grammar.parse ⟨scope, none⟩ source p = .error endFault := by
    rcases parse_cutShort ⟨scope, some nestingLimit⟩ source p with heq | hdeep
    · exact heq.symm.trans hparse
    · exact absurd (hdeep.symm.trans hparse) (by simp)
  obtain ⟨q, hshape, hq⟩ := exists_parse_append hown hunlimited
  refine ⟨q, hshape, fun source' => ?_⟩
  obtain ⟨e, he⟩ := hq source'
  rcases parse_cutShort ⟨scope, some nestingLimit⟩ source' (p ++ q) with heq | hdeep
  · exact .inl ⟨e, heq.trans he⟩
  · exact .inr hdeep

/-- A closing parenthesis at the start is a fault whatever comes behind it, and `x ^ (` only lacks
something at its end. -/
theorem parse_correctPrefix_power :
    let scope : Scope := fun name => if name = "x" then some (.constant 2) else none
    let closed : List Lexeme := [⟨.closeParen, ")", 0, 1, ⟨1, 1⟩⟩]
    let unfinished : List Lexeme :=
      [⟨.name "x", "x", 0, 1, ⟨1, 1⟩⟩, ⟨.operator .power, "^", 2, 3, ⟨1, 3⟩⟩,
        ⟨.openParen, "(", 4, 5, ⟨1, 5⟩⟩]
    Grammar.parse ⟨scope, some nestingLimit⟩ ")" closed = .error (.unexpectedToken ")") ∧
      (∀ source' q, Grammar.parse ⟨scope, some nestingLimit⟩ source' (closed ++ q) =
        .error (.unexpectedToken ")")) ∧
      (∀ l ∈ unfinished, l.token ≠ .endOfInput ∧ l.text ≠ "<<EOF>>") ∧
      Grammar.parse ⟨scope, some nestingLimit⟩ "x ^ (" unfinished =
        .error (.unexpectedToken "<<EOF>>") ∧
      ∃ q : List Lexeme,
        (∃ (number : Option Quantity) (n : Nat),
          q.map Lexeme.token = (number.map Token.number).toList ++ List.replicate n .closeParen) ∧
        ∀ source',
          (∃ e, Grammar.parse ⟨scope, some nestingLimit⟩ source' (unfinished ++ q) = .ok e) ∨
            Grammar.parse ⟨scope, some nestingLimit⟩ source' (unfinished ++ q) =
              .error .nestingTooDeep := by
  intro scope closed unfinished
  have hclosed : Grammar.parse ⟨scope, some nestingLimit⟩ ")" closed =
      .error (.unexpectedToken ")") := by cbv
  have hlack : Grammar.parse ⟨scope, some nestingLimit⟩ "x ^ (" unfinished =
      .error (.unexpectedToken "<<EOF>>") := by cbv
  have hproper : ∀ l ∈ unfinished, l.token ≠ .endOfInput ∧ l.text ≠ "<<EOF>>" := by
    simp [unfinished]
  exact ⟨hclosed, (parse_correctPrefix scope closed).1 ")" _ hclosed (by decide) (by decide),
    hproper, hlack, (parse_correctPrefix scope unfinished).2 hproper "x ^ (" hlack⟩

end Grammar

end UnitCalc
