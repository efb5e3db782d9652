import Mathlib
import UnitCalc.Proofs.Parse.Comparison
import UnitCalc.Proofs.Parse.Success

/-!
# What the nesting limit does

The limit on nesting can only turn a result into `Fault.nestingTooDeep`, and it does so exactly when
it has to. Throughout, a grammar with a limit is compared with the same grammar without one.

* `CutShort`: an outcome is kept, or replaced by the fault of too deep nesting. The two grammars
  compare by this relation (`comparison_cutShort`), since a level that is let in is no difference.
* `limits_of_parses`: a run that succeeds under the limit has kept to it, both in the number of
  expressions that are read inside one another and in the height of the tree.
* `parses_of_limits`: a run without a limit that happens to keep to it succeeds under it.
-/

namespace UnitCalc

namespace Grammar

/-- The same grammar without a limit on nesting. -/
def unlimited (g : Grammar) : Grammar := { g with limit := none }

theorem unlimited_admits (g : Grammar) (levels : Nat) : g.unlimited.admits levels = true := rfl

theorem admits_some {scope : Scope} {limit levels : Nat} :
    (⟨scope, some limit⟩ : Grammar).admits levels = true ↔ levels ≤ limit := by
  simp [admits]

/-! ## Results that are cut short -/

/-- The second outcome is the first one, or the limit has put an end to the run. -/
def CutShort (o o' : Outcome) : Prop := o' = o ∨ ∃ c, o' = .failed .nestingTooDeep c

namespace CutShort

theorem refl (o : Outcome) : CutShort o o := .inl rfl

theorem tooDeep (o : Outcome) (c : Cursor) : CutShort o (.failed .nestingTooDeep c) :=
  .inr ⟨c, rfl⟩

/-- Only a success goes on, so the continuations need to agree only behind a success. -/
theorem andThen {o o' : Outcome} {next next' : Expr → Nat → Cursor → Outcome}
    (ho : CutShort o o')
    (hnext : ∀ e h c, o = .parsed e h c → CutShort (next e h c) (next' e h c)) :
    CutShort (o.andThen next) (o'.andThen next') := by
  rcases ho with rfl | ⟨c, rfl⟩
  · cases o' with
    | parsed e h c => exact hnext e h c rfl
    | failed fault c => exact refl _
  · exact tooDeep _ c

/-- A success that was not cut short is the success of both. -/
theorem eq_parsed {o o' : Outcome} {e : Expr} {h : Nat} {c : Cursor} (ho : CutShort o o')
    (hrun : o' = .parsed e h c) : o = .parsed e h c := by
  rcases ho with rfl | ⟨c', rfl⟩
  · exact hrun
  · exact absurd hrun (by simp)

end CutShort

/-- A grammar and the same one without a limit compare by this relation. They look up names in the
same scope, and a level that is not let in cuts the run short. -/
theorem comparison_cutShort (g : Grammar) :
    Comparison g.unlimited g (fun _ => True) CutShort where
  refl := .refl
  andThen := .andThen
  level c ho := by
    rw [if_pos (g.unlimited_admits _)]
    split
    · exact ho rfl
    · exact .tooDeep _ c
  name {depth c name} _ htok := by
    rw [readOperand_eq g, readOperand_eq g.unlimited]
    simp only [htok]
    exact .refl _
  calls _ _ := trivial

/-- The limit leaves the outcome of a call alone or replaces it. -/
theorem outcome_cutShort (g : Grammar) (a : Call) :
    CutShort (a.outcome g.unlimited) (a.outcome g) :=
  (comparison_cutShort g).outcome a trivial

/-- The limit leaves the result of a whole sequence alone or replaces it. -/
theorem parse_cutShort (g : Grammar) (source : String) (lexemes : List Lexeme) :
    g.parse source lexemes = g.unlimited.parse source lexemes ∨
      g.parse source lexemes = .error .nestingTooDeep := by
  have hcut := outcome_cutShort g (.expression 0 0 (Cursor.ofLexemes source lexemes))
  simp only [Call.outcome] at hcut
  rw [parse_eq g, parse_eq g.unlimited]
  rcases hcut with heq | ⟨c, heq⟩
  · rw [heq]
    exact .inl rfl
  · rw [heq]
    exact .inr rfl

/-! ## Keeping to a limit

A run keeps to a limit if at no moment more expressions are being read inside one another, those
around the call included. A call is made as many levels down as its caller begins. -/

/-- A call is made as many levels down as its caller begins to read. -/
theorem Calls.depth_eq {g : Grammar} {a b : Call} (hcall : Calls g a b) :
    b.depth = a.depth + a.levels := by
  cases hcall <;> rfl

/-- At no moment of the run are more expressions than the limit being read inside one another. -/
def Keeps (g : Grammar) (limit : Nat) (a : Call) : Prop :=
  ∀ n, Active g a n → a.depth + n ≤ limit

/-- A run keeps to a limit if its own level does, and if all the calls that it makes do. -/
theorem keeps_iff {g : Grammar} {limit : Nat} {a : Call} :
    Keeps g limit a ↔ a.depth + a.levels ≤ limit ∧ ∀ b, Calls g a b → Keeps g limit b := by
  constructor
  · intro hkeeps
    refine ⟨hkeeps _ (.here a), fun b hcall n hb => ?_⟩
    have hle := hkeeps _ (.within hcall hb)
    have hdepth := hcall.depth_eq
    omega
  · rintro ⟨hhere, hsub⟩ n hactive
    -- the moment is in the call itself, or in one of the calls that it makes
    cases hactive with
    | here => exact hhere
    | within hcall hb =>
      have hle := hsub _ hcall _ hb
      have hdepth := hcall.depth_eq
      omega

/-- The level on which a call is made, and the height of the tree it goes on with, keep to the
limit. -/
def Call.Within (limit : Nat) : Call → Prop
  | .expression .. => True
  | .operand depth _ => 1 ≤ depth ∧ depth ≤ limit
  | .extend depth _ _ h _ | .attach depth _ _ h _ => depth ≤ limit ∧ h ≤ limit

variable {scope : Scope} {limit : Nat} {a : Call} {e : Expr} {h : Nat} {d : Cursor}

theorem unlimited_outcome (hrun : Parses ⟨scope, some limit⟩ a e h d) :
    a.outcome ⟨scope, none⟩ = .parsed e h d :=
  (outcome_cutShort ⟨scope, some limit⟩ a).eq_parsed hrun.outcome_eq

/-- Every level that the run has been on is one that was let in. The calls of the unlimited run are
those of the limited one, because the results in between are the same. -/
theorem limits_of_parses (hrun : Parses ⟨scope, some limit⟩ a e h d) (hwithin : a.Within limit) :
    Keeps ⟨scope, none⟩ limit a ∧ h ≤ limit := by
  induction hrun with
  | expression hadm hop _ ihop ihext =>
    have hdepth := admits_some.1 hadm
    obtain ⟨hopKeeps, hopHeight⟩ := ihop ⟨Nat.le_add_left 1 _, hdepth⟩
    obtain ⟨hextKeeps, hextHeight⟩ := ihext ⟨hdepth, hopHeight⟩
    refine ⟨keeps_iff.2 ⟨hdepth, fun b hcall => ?_⟩, hextHeight⟩
    cases hcall with
    | operand => exact hopKeeps
    | extend _ hrun =>
      cases hrun.symm.trans (unlimited_outcome hop)
      exact hextKeeps
  | number htok | name htok =>
    -- a single token calls nothing
    refine ⟨keeps_iff.2 ⟨hwithin.2, fun b hcall => ?_⟩, Nat.le_trans hwithin.1 hwithin.2⟩
    cases hcall with
    | plus htok' | minus htok' | group htok' => exact absurd (htok.symm.trans htok') (by simp)
  -- the token tells which of the calls is made
  | plus htok _ ih =>
    obtain ⟨hkeeps, hheight⟩ := ih trivial
    refine ⟨keeps_iff.2 ⟨hwithin.2, fun b hcall => ?_⟩, hheight⟩
    cases hcall with
    | plus => exact hkeeps
    | minus htok' | group htok' => exact absurd (htok.symm.trans htok') (by simp)
  | minus htok _ hadm ih =>
    refine ⟨keeps_iff.2 ⟨hwithin.2, fun b hcall => ?_⟩, admits_some.1 hadm⟩
    cases hcall with
    | minus => exact (ih trivial).1
    | plus htok' | group htok' => exact absurd (htok.symm.trans htok') (by simp)
  | group htok _ _ ih =>
    obtain ⟨hkeeps, hheight⟩ := ih trivial
    refine ⟨keeps_iff.2 ⟨hwithin.2, fun b hcall => ?_⟩, hheight⟩
    cases hcall with
    | group => exact hkeeps
    | plus htok' | minus htok' => exact absurd (htok.symm.trans htok') (by simp)
  | stop hpow =>
    -- whatever comes next was not attached, so there are no calls
    refine ⟨keeps_iff.2 ⟨hwithin.1, fun b hcall => ?_⟩, hwithin.2⟩
    cases hcall with
    | attach hlink hlt | again hlink hlt =>
      rw [nextPower_of_link hlink] at hpow
      exact absurd hlt (Nat.not_lt_of_le hpow)
  | link hlink hpow hatt _ ihatt ihext =>
    obtain ⟨hattKeeps, hattHeight⟩ := ihatt hwithin
    obtain ⟨hextKeeps, hextHeight⟩ := ihext ⟨hwithin.1, hattHeight⟩
    refine ⟨keeps_iff.2 ⟨hwithin.1, fun b hcall => ?_⟩, hextHeight⟩
    cases hcall with
    | attach hlink' =>
      cases hlink'.symm.trans hlink
      exact hattKeeps
    | again hlink' _ hrun =>
      cases hlink'.symm.trans hlink
      cases hrun.symm.trans (unlimited_outcome hatt)
      exact hextKeeps
  | operator _ hadm ih =>
    refine ⟨keeps_iff.2 ⟨hwithin.1, fun b hcall => ?_⟩, admits_some.1 hadm⟩
    cases hcall with
    | right => exact (ih trivial).1
  | argument _ _ _ hadm ih =>
    refine ⟨keeps_iff.2 ⟨hwithin.1, fun b hcall => ?_⟩, admits_some.1 hadm⟩
    cases hcall with
    | argument => exact (ih trivial).1

/-! ## A run that keeps to the limit succeeds under it -/

/-- A run without a limit that keeps to the limit, and whose tree is no higher, succeeds under it.
The height has to be known for the last tree only, since no tree on the way is higher. -/
theorem parses_of_limits (hrun : Parses ⟨scope, none⟩ a e h d) (hsized : a.Sized)
    (hkeeps : Keeps ⟨scope, none⟩ limit a) (hheight : h ≤ limit) :
    Parses ⟨scope, some limit⟩ a e h d := by
  -- each call was made in the run without a limit, so its level is one that the run keeps to
  induction hrun with
  | expression hadm hop hext ihop ihext =>
    obtain ⟨hdepth, hsub⟩ := keeps_iff.1 hkeeps
    -- the operand is part of the whole tree, so it is no higher
    have hop_eq := hop.height_eq trivial
    have hext_eq := hext.height_eq hop_eq
    have hle := hext.left_height_le rfl
    rw [← hop_eq, ← hext_eq] at hle
    exact .expression (admits_some.2 hdepth)
      (ihop trivial (hsub _ (.operand hadm)) (Nat.le_trans hle hheight))
      (ihext hop_eq (hsub _ (.extend hadm hop.outcome_eq)) hheight)
  | number htok => exact .number htok
  | name htok hscope => exact .name htok hscope
  | plus htok _ ih =>
    exact .plus htok (ih trivial ((keeps_iff.1 hkeeps).2 _ (.plus htok)) hheight)
  | minus htok _ _ ih =>
    have hlow := Nat.le_of_succ_le hheight
    exact .minus htok (ih trivial ((keeps_iff.1 hkeeps).2 _ (.minus htok)) hlow)
      (admits_some.2 hheight)
  | group htok _ hclose ih =>
    exact .group htok (ih trivial ((keeps_iff.1 hkeeps).2 _ (.group htok)) hheight) hclose
  | stop hpow => exact .stop hpow
  | link hlink hpow hatt hext ihatt ihext =>
    obtain ⟨-, hsub⟩ := keeps_iff.1 hkeeps
    -- what is attached first ends up inside the whole, like the operand above
    have hatt_eq := hatt.height_eq hsized
    have hext_eq := hext.height_eq hatt_eq
    have hle := hext.left_height_le rfl
    rw [← hatt_eq, ← hext_eq] at hle
    exact .link hlink hpow
      (ihatt hsized (hsub _ (.attach hlink hpow)) (Nat.le_trans hle hheight))
      (ihext hatt_eq (hsub _ (.again hlink hpow hatt.outcome_eq)) hheight)
  | operator _ _ ih =>
    have hlow := Nat.le_trans (Nat.le_max_right _ _) (Nat.le_of_succ_le hheight)
    exact .operator (ih trivial ((keeps_iff.1 hkeeps).2 _ .right) hlow) (admits_some.2 hheight)
  | argument hfun _ hclose _ ih =>
    have hlow := Nat.le_of_succ_le hheight
    exact .argument hfun (ih trivial ((keeps_iff.1 hkeeps).2 _ (.argument hfun)) hlow) hclose
      (admits_some.2 hheight)

/-! ## Whole sequences -/

/-- No tree that is accepted is higher than the limit. -/
theorem height_le_of_parse {source : String} {lexemes : List Lexeme}
    (hparse : Grammar.parse ⟨scope, some limit⟩ source lexemes = .ok e) : e.height ≤ limit := by
  obtain ⟨h, d, hrun, -⟩ := parse_eq_ok.1 hparse
  rw [← hrun.height_eq trivial]
  exact (limits_of_parses hrun trivial).2

/-- A tree that is read without a limit is read under it exactly if both the run and the tree keep
to it. -/
theorem parse_limited_iff {source : String} {lexemes : List Lexeme}
    (hparse : Grammar.parse ⟨scope, none⟩ source lexemes = .ok e) :
    Grammar.parse ⟨scope, some limit⟩ source lexemes = .ok e ↔
      Keeps ⟨scope, none⟩ limit (.expression 0 0 (Cursor.ofLexemes source lexemes)) ∧
        e.height ≤ limit := by
  constructor
  · intro hlimited
    obtain ⟨h, d, hrun, -⟩ := parse_eq_ok.1 hlimited
    exact ⟨(limits_of_parses hrun trivial).1, height_le_of_parse hlimited⟩
  · rintro ⟨hkeeps, hheight⟩
    obtain ⟨h, d, hrun, hend⟩ := parse_eq_ok.1 hparse
    rw [← hrun.height_eq trivial] at hheight
    exact parse_eq_ok.2 ⟨h, d, parses_of_limits hrun trivial hkeeps hheight, hend⟩

/-- The limit of 256 only ever replaces a result by the fault of too deep nesting. It does so to a
tree exactly if more than 256 expressions were read inside one another, the outermost counted, or if
the tree is higher than 256; so no tree is higher. -/
theorem parse_nestingLimit (scope : Scope) (source : String) (lexemes : List Lexeme) :
    let limited := Grammar.parse ⟨scope, some nestingLimit⟩ source lexemes
    let unlimited := Grammar.parse ⟨scope, none⟩ source lexemes
    let start := Call.expression 0 0 (Cursor.ofLexemes source lexemes)
    (limited = unlimited ∨ limited = .error .nestingTooDeep) ∧
      (∀ e, unlimited = .ok e →
        (limited = .ok e ↔
          (∀ n, Active ⟨scope, none⟩ start n → n ≤ 256) ∧ e.height ≤ 256)) ∧
      ∀ e, limited = .ok e → e.height ≤ 256 := by
  intro limited unlimited start
  refine ⟨parse_cutShort ⟨scope, some nestingLimit⟩ source lexemes, fun e hparse => ?_,
    fun e hparse => height_le_of_parse hparse⟩
  have hkeeps : Keeps ⟨scope, none⟩ nestingLimit start ↔
      ∀ n, Active ⟨scope, none⟩ start n → n ≤ 256 := by
    simp only [Keeps, start, Call.depth, nestingLimit, Nat.zero_add]
  rw [← hkeeps]
  exact parse_limited_iff hparse

/-! Plus signs leave no trace in a tree, but each one begins an expression: with `n` of them in
front of a name, `n + 1` expressions are being read when the name is reached. -/

/-- The lexemes of a name behind plus signs. -/
def signedName (signs : Nat) : List Lexeme :=
  List.replicate signs ⟨.operator .add, "+", 0, 1, ⟨1, 1⟩⟩ ++ [⟨.name "x", "x", 0, 1, ⟨1, 1⟩⟩]

/-- As many expressions inside one another as have to be let in for the signs and the name. -/
theorem parses_signedName {g : Grammar} {binding : Binding} (hscope : g.scope "x" = some binding)
    {signs depth minPower taken : Nat} {source : String}
    (hadm : ∀ k ≤ signs, g.admits (depth + k + 1) = true) :
    Parses g (.expression depth minPower ⟨source, signedName signs, taken⟩)
      (.identifier ⟨"x", binding⟩) 1 ⟨source, [], taken + signs + 1⟩ := by
  -- each sign goes one level further inside, so the depth changes with the signs
  induction signs generalizing depth minPower taken with
  | zero =>
    exact .expression (hadm 0 (Nat.le_refl 0)) (.name rfl hscope) (.stop (Nat.zero_le _))
  | succ signs ih =>
    have hinner : ∀ k ≤ signs, g.admits (depth + 1 + k + 1) = true := by
      intro k hk
      rw [Nat.add_assoc depth, Nat.add_comm 1 k]
      exact hadm (k + 1) (Nat.succ_le_succ hk)
    have hoperand : Parses g
        (.expression (depth + 1) signPower ⟨source, signedName signs, taken + 1⟩)
        (.identifier ⟨"x", binding⟩) 1 ⟨source, [], taken + 1 + signs + 1⟩ := ih hinner
    have htaken : taken + (signs + 1) + 1 = taken + 1 + signs + 1 := by omega
    rw [htaken]
    exact .expression (hadm 0 (Nat.zero_le _)) (.plus rfl hoperand) (.stop (Nat.zero_le _))

/-- The innermost expression is the name itself. -/
theorem active_signedName (scope : Scope) (signs depth minPower taken : Nat) (source : String) :
    Active ⟨scope, none⟩ (.expression depth minPower ⟨source, signedName signs, taken⟩)
      (signs + 1) := by
  induction signs generalizing depth minPower taken with
  | zero => exact .here _
  | succ signs ih =>
    have hinner : Active ⟨scope, none⟩
        (.operand (depth + 1) ⟨source, signedName (signs + 1), taken⟩)
        (0 + (signs + 1)) := .within (.plus rfl) (ih (depth + 1) signPower (taken + 1))
    have hlevels : signs + 1 + 1 = 1 + (0 + (signs + 1)) := by omega
    rw [hlevels]
    exact .within (.operand rfl) hinner

/-- Without a limit in the way, the name is what is read. -/
theorem parse_signedName {limit : Option Nat} {signs : Nat}
    (hadm : ∀ levels ≤ signs + 1, limit.all (levels ≤ ·) = true) :
    Grammar.parse ⟨fun _ => some (.constant 2), limit⟩ "" (signedName signs) =
      .ok (.identifier ⟨"x", .constant 2⟩) := by
  refine parse_eq_ok.2 ⟨1, _, parses_signedName rfl fun k hk => hadm _ ?_, rfl⟩
  omega

/-- Up to 255 plus signs are within the limit, the 256th one is beyond it. -/
theorem parse_nestingLimit_signs :
    let scope : Scope := fun _ => some (.constant 2)
    let x : Expr := .identifier ⟨"x", .constant 2⟩
    Grammar.parse ⟨scope, some nestingLimit⟩ "" (signedName 255) = .ok x ∧
      (∀ n, Active ⟨scope, none⟩
        (.expression 0 0 (Cursor.ofLexemes "" (signedName 255))) n → n ≤ 256) ∧
      Grammar.parse ⟨scope, none⟩ "" (signedName 256) = .ok x ∧
      Grammar.parse ⟨scope, some nestingLimit⟩ "" (signedName 256) = .error .nestingTooDeep := by
  intro scope x
  have hwithin : Grammar.parse ⟨scope, some nestingLimit⟩ "" (signedName 255) = .ok x :=
    parse_signedName fun levels hle => decide_eq_true hle
  have hwithout (signs : Nat) : Grammar.parse ⟨scope, none⟩ "" (signedName signs) = .ok x :=
    parse_signedName fun _ _ => rfl
  obtain ⟨-, hexact, -⟩ := parse_nestingLimit scope "" (signedName 255)
  obtain ⟨hcut, hexact', -⟩ := parse_nestingLimit scope "" (signedName 256)
  refine ⟨hwithin, ((hexact x (hwithout 255)).1 hwithin).1, hwithout 256, ?_⟩
  rcases hcut with hsame | hdeep
  · -- a tree would have been read with 257 expressions inside one another
    have hlevels := ((hexact' x (hwithout 256)).1 (hsame.trans (hwithout 256))).1
    exact absurd (hlevels 257 (active_signedName scope 256 0 0 0 "")) (by decide)
  · exact hdeep

end Grammar

end UnitCalc
