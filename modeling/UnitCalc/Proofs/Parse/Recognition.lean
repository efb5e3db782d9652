import Mathlib
import UnitCalc.Proofs.Parse.Derivation
import UnitCalc.Proofs.Parse.Nesting
import UnitCalc.Proofs.Reading

/-!
# The routines recognise the grammar

What binding powers have to do with the grammar is in two numbers for each nonterminal `s`:

* `s.maxPower`: up to this minimum, an expression goes on as long as a word of `s` does;
* `s.follow`: behind a word of `s` nothing may stand that binds more tightly than this. Something
  that does would be attached to the last operand of the word and not to the word.

Both directions are about a word of some `s` between two cursors, with `s.maxPower` at least the
minimum and `s.follow` at least the power of what comes next.

* `followed_of_derives` (completeness): an expression reads such a word and goes on from there with
  its tree. Induction on the derivation.
* `justifies_of_parses` (soundness): what an expression has read is such a word. Induction on the
  run; `derives_attach` is the step that adds an operator and its right side.
* `parse_derives`: the parser accepts exactly the sums, and finds their trees.
-/

namespace UnitCalc

namespace Nonterminal

/-- Up to this minimum an expression goes on as long as a word does. An operator joins words one
power above it. -/
def maxPower : Nonterminal → Nat
  | sum => 19
  | term | product => 29
  | tail | power => 39
  | atom | callee => 49

/-- Nothing that binds more tightly than this may stand behind a word: it would take the last
operand of the word away. -/
def follow : Nonterminal → Nat
  | sum | term | tail => 20
  | product => 30
  | power => 39
  | atom | callee => 50

end Nonterminal

namespace Grammar

open Cursor (Reads)

variable {scope : Scope}

/-! ## Completeness

Without a limit every derivation is followed: an expression that stands in front of a word goes on
behind it, with its tree. That the run goes on is what makes the statement inductive, for the rest
of a word is attached by the extension behind its left part. -/

/-- An expression that stands in front of the word goes on behind it with the tree of the word. -/
def Followed (scope : Scope) (s : Nonterminal) (w : List Token) (e : Expr) : Prop :=
  ∀ {depth minPower : Nat} {c d : Cursor},
    minPower ≤ s.maxPower → Reads c w d → nextPower d ≤ s.follow →
      ∀ {e' : Expr} {h' : Nat} {d' : Cursor},
        Parses ⟨scope, none⟩ (.extend (depth + 1) minPower e e.height d) e' h' d' →
          Parses ⟨scope, none⟩ (.expression depth minPower c) e' h' d'

/-- The powers that let an operator join a word of `l` and a word of `r` to a word of `s`: the
operator goes on behind the left word, and what stands behind the whole ends the right word. -/
def Joins (s l : Nonterminal) (op : Operator) (r : Nonterminal) : Prop :=
  s.maxPower ≤ l.maxPower ∧ op.bindingPower ≤ l.follow ∧ s.maxPower < op.bindingPower ∧
    op.rightPower ≤ r.maxPower ∧ s.follow ≤ op.rightPower ∧ s.follow ≤ r.follow

instance (s l : Nonterminal) (op : Operator) (r : Nonterminal) : Decidable (Joins s l op r) :=
  inferInstanceAs (Decidable (_ ∧ _))

namespace Followed

variable {s l r : Nonterminal} {w v : List Token} {e f : Expr}

/-- A word of a nonterminal with larger numbers is read in its place as well. -/
theorem mono (hsub : Followed scope l w e) (hmax : s.maxPower ≤ l.maxPower)
    (hfollow : s.follow ≤ l.follow) : Followed scope s w e := by
  intro depth minPower c d hmin hreads hnext e' h' d' hext
  exact hsub (Nat.le_trans hmin hmax) hreads (Nat.le_trans hnext hfollow) hext

/-- A token that is an operand by itself. -/
theorem token {t : Token} (ht : t ≠ .endOfInput)
    (hop : ∀ {depth : Nat} {c : Cursor}, c.peek.token = t →
      Parses ⟨scope, none⟩ (.operand depth c) e e.height c.advance) :
    Followed scope s [t] e := by
  intro depth minPower c d _ hreads _ e' h' d' hext
  have htok := hreads.head.1
  have hd : d = c.advance := hreads.unique (Cursor.reads_one htok ht)
  subst hd
  exact .expression rfl (hop htok) hext

/-- Two words and the operator between them. The expression reads the left word; then the operator
takes the right word, since that is read up to the end of the whole. -/
theorem binary {op : Operator} (hleft : Followed scope l w e) (hright : Followed scope r v f)
    (hjoins : Joins s l op r) : Followed scope s (w ++ .operator op :: v) (.binary op e f) := by
  intro depth minPower c d hmin hreads hnext e' h' d' hext
  obtain ⟨hmax, hop, hpow, hrmax, hend, hrfollow⟩ := hjoins
  obtain ⟨m, hw, hv⟩ := hreads.split
  have hlink : m.peek.token.link? = some (.operator op) := by
    rw [hv.head.1]
    rfl
  -- the left word is followed by the operator, which may stand behind it
  refine hleft (Nat.le_trans hmin hmax) hw ?_ ?_
  · rw [nextPower_of_link hlink]
    exact hop
  · -- the right side ends where the whole word does
    have hexp :
        Parses ⟨scope, none⟩ (.expression (depth + 1) op.rightPower m.advance) f f.height d :=
      hright hrmax hv.head.2 (Nat.le_trans hnext hrfollow) (.stop (Nat.le_trans hnext hend))
    exact .link hlink (Nat.lt_of_le_of_lt hmin hpow) (.operator hexp rfl) hext

/-- A sum up to the parenthesis behind it. -/
theorem closed (hsum : Followed scope .sum w e) {depth : Nat} {c d : Cursor}
    (hreads : Reads c (w ++ [.closeParen]) d) :
    ∃ m, Parses ⟨scope, none⟩ (.expression depth 0 c) e e.height m ∧
      m.peek.token = .closeParen ∧ d = m.advance := by
  obtain ⟨m, hw, hclose⟩ := hreads.split
  have htok := hclose.head.1
  have hpow := nextPower_of_closeParen htok
  refine ⟨m, hsum (Nat.zero_le _) hw ?_ (.stop (Nat.le_of_eq hpow)), htok,
    hclose.unique (Cursor.reads_one htok (by simp))⟩
  rw [hpow]
  exact Nat.zero_le _

/-- A sum in parentheses. Behind the closing one the expression goes on as behind any operand. -/
theorem group (hsum : Followed scope .sum w e) :
    Followed scope s (.openParen :: (w ++ [.closeParen])) e := by
  intro depth minPower c d _ hreads _ e' h' d' hext
  obtain ⟨m, hexp, htok, rfl⟩ := hsum.closed hreads.head.2
  exact .expression rfl (.group hreads.head.1 hexp htok) hext

/-- A callee and its argument. No operator binds as tightly as the parenthesis behind the callee. -/
theorem call {id : Identifier} {g : UnaryFunction} (hfun : id.binding = .function g)
    (hcallee : Followed scope .callee w (.identifier id)) (hsum : Followed scope .sum v e) :
    Followed scope .atom (w ++ .openParen :: (v ++ [.closeParen])) (.call id e) := by
  intro depth minPower c d hmin hreads _ e' h' d' hext
  obtain ⟨m, hw, hv⟩ := hreads.split
  have hlink : m.peek.token.link? = some .argument := by
    rw [hv.head.1]
    rfl
  refine hcallee hmin hw ?_ ?_
  · rw [nextPower_of_link hlink]
    decide
  · obtain ⟨m', hexp, htok, rfl⟩ := hsum.closed hv.head.2
    exact .link hlink (Nat.lt_succ_of_le hmin) (.argument hfun hexp htok rfl) hext

/-- What a sign takes ends where the tail does. -/
theorem sign (hterm : Followed scope .term w e) {t : Token} {depth : Nat} {c d : Cursor}
    (hreads : Reads c (t :: w) d) (hnext : nextPower d ≤ Nonterminal.tail.follow) :
    Parses ⟨scope, none⟩ (.expression depth signPower c.advance) e e.height d :=
  hterm (by decide) hreads.head.2 hnext (.stop hnext)

end Followed

/-- Completeness: an expression reads every word of the grammar, and finds its tree. -/
theorem followed_of_derives {s : Nonterminal} {w : List Token} {e : Expr}
    (hderives : Derives scope s w e) : Followed scope s w e := by
  induction hderives with
  -- where two words are joined, the powers in `Joins` are all that has to be checked
  | sum_term _ ih => exact ih.mono (by decide) (by decide)
  | sum_add hop _ _ ihleft ihright =>
    exact ihleft.binary ihright (by rcases hop with rfl | rfl <;> decide)
  | term_product _ ih => exact ih.mono (by decide) (by decide)
  | term_tail _ ih => exact ih.mono (by decide) (by decide)
  | term_multiply hop _ _ ihleft ihright =>
    exact ihleft.binary ihright (by rcases hop with rfl | rfl <;> decide)
  -- a sign is an operand; what it takes ends where the tail does, and the expression goes on there
  | tail_plus _ ih =>
    intro depth minPower c d _ hreads hnext e' h' d' hext
    exact .expression rfl (.plus hreads.head.1 (ih.sign hreads hnext)) hext
  | tail_minus _ ih =>
    intro depth minPower c d _ hreads hnext e' h' d' hext
    exact .expression rfl (.minus hreads.head.1 (ih.sign hreads hnext) rfl) hext
  | tail_power _ _ ihleft ihright => exact ihleft.binary ihright (by decide)
  | product_power _ ih => exact ih.mono (by decide) (by decide)
  | product_multiply hop _ _ ihleft ihright =>
    exact ihleft.binary ihright (by rcases hop with rfl | rfl <;> decide)
  | power_atom _ ih => exact ih.mono (by decide) (by decide)
  | power_power _ _ ihleft ihright => exact ihleft.binary ihright (by decide)
  | atom_number value => exact Followed.token (by simp) fun htok => .number htok
  | atom_name hscope => exact Followed.token (by simp) fun htok => .name htok hscope
  | atom_group _ ih => exact ih.group
  | atom_call hcallee _ ihcallee ihsum =>
    obtain ⟨f, hfun⟩ := hcallee.callee_function
    exact Followed.call hfun ihcallee ihsum
  | callee_name hscope => exact Followed.token (by simp) fun htok => .name htok hscope
  | callee_group _ _ ih => exact ih.group

/-- A sum that is a whole sequence is accepted with its tree, if there is no limit. -/
theorem parse_of_derives {source : String} {lexemes : List Lexeme} {e : Expr}
    (hderives : Derives scope .sum (lexemes.map Lexeme.token) e) :
    Grammar.parse ⟨scope, none⟩ source lexemes = .ok e := by
  have hall : (Cursor.ofLexemes source lexemes).tokens = lexemes.map Lexeme.token ++ [] := by
    rw [List.append_nil]
    rfl
  obtain ⟨d, hreads, hend⟩ := Cursor.exists_reads hall
  have hnil : d.rest = [] := List.map_eq_nil_iff.1 hend
  -- nothing comes behind the whole sequence, so the extension stops there
  have hpow : nextPower d = 0 := by
    apply nextPower_of_no_link
    rw [Cursor.peek, hnil]
    rfl
  refine parse_eq_ok.2 ⟨e.height, d, ?_, hnil⟩
  refine followed_of_derives hderives (Nat.zero_le _) hreads ?_ (.stop (Nat.le_of_eq hpow))
  rw [hpow]
  exact Nat.zero_le _

/-! ## Soundness

Every minimum that occurs is at most 39, so a sign may always be the beginning of what is read. -/

/-- No right side has a minimum that keeps a sign out. -/
theorem rightPower_le (op : Operator) : op.rightPower ≤ 39 := by
  cases op <;> decide

/-- Anything may follow an atom. -/
theorem nextPower_le (c : Cursor) : nextPower c ≤ Nonterminal.atom.follow := by
  unfold nextPower
  split
  · rename_i link _
    cases link with
    | operator op => cases op <;> decide
    | argument => decide
  · decide

/-- Between `c` and `d` stands a word that an expression of the minimum `minPower` reads, and `e` is
its tree. -/
def Justified (scope : Scope) (minPower : Nat) (c : Cursor) (e : Expr) (d : Cursor) : Prop :=
  ∃ s w, Derives scope s w e ∧ Reads c w d ∧ minPower ≤ s.maxPower ∧ nextPower d ≤ s.follow

theorem Justified.mono {minPower minPower' : Nat} {c d : Cursor} {e : Expr}
    (h : Justified scope minPower c e d) (hle : minPower' ≤ minPower) :
    Justified scope minPower' c e d := by
  obtain ⟨s, w, hderives, hreads, hmin, hnext⟩ := h
  exact ⟨s, w, hderives, hreads, Nat.le_trans hle hmin, hnext⟩

/-! What may be the left side of an operator, by what may stand behind it, and what may be its right
side, by the minimum of the right side. -/

/-- What an argument may stand behind, or a power sign, is an atom. -/
theorem atom_of_follow {s : Nonterminal} {w : List Token} {e : Expr} (h : Derives scope s w e)
    (hs : 40 ≤ s.follow) : Derives scope .atom w e := by
  cases s with
  | atom => exact h
  | callee => exact h.atom_of_callee
  | sum | term | tail | product | power => exact absurd hs (by decide)

/-- What a multiplication may stand behind is a product. -/
theorem product_of_follow {s : Nonterminal} {w : List Token} {e : Expr} (h : Derives scope s w e)
    (hs : 30 ≤ s.follow) : Derives scope .product w e := by
  cases s with
  | product => exact h
  | power => exact .product_power h
  | atom => exact h.product_of_atom
  | callee => exact h.atom_of_callee.product_of_atom
  | sum | term | tail => exact absurd hs (by decide)

/-- What a sum has on its right side is a term. -/
theorem term_of_maxPower {s : Nonterminal} {w : List Token} {e : Expr} (h : Derives scope s w e)
    (hs : 20 ≤ s.maxPower) : Derives scope .term w e := by
  cases s with
  | term => exact h
  | tail => exact .term_tail h
  | product => exact .term_product h
  | power => exact .term_product (.product_power h)
  | atom => exact h.term_of_atom
  | callee => exact h.atom_of_callee.term_of_atom
  | sum => exact absurd hs (by decide)

/-- A word that only something above 30 can interrupt is a power, unless it ends in a tail. -/
theorem power_or_tail {s : Nonterminal} {w : List Token} {e : Expr} (h : Derives scope s w e)
    (hs : 30 ≤ s.maxPower) :
    Derives scope .power w e ∨ (Derives scope .tail w e ∧ s.follow ≤ Nonterminal.tail.follow) := by
  cases s with
  | power => exact .inl h
  | tail => exact .inr ⟨h, Nat.le_refl _⟩
  | atom => exact .inl (.power_atom h)
  | callee => exact .inl (.power_atom h.atom_of_callee)
  | sum | term | product => exact absurd hs (by decide)

/-- An operator between two words. -/
theorem derives_attach {op : Operator} {l r : Nonterminal} {w v : List Token} {left right : Expr}
    {next : Nat} (hleft : Derives scope l w left) (hop : op.bindingPower ≤ l.follow)
    (hright : Derives scope r v right) (hmax : op.rightPower ≤ r.maxPower)
    (hfollow : next ≤ r.follow) (hnext : next ≤ op.rightPower) :
    ∃ s, Derives scope s (w ++ .operator op :: v) (.binary op left right) ∧
      op.bindingPower ≤ s.maxPower + 1 ∧ next ≤ s.follow := by
  -- the rules that an operator has, by its power; where its right side ends in a tail, the whole is
  -- one that ends in a tail
  cases op with
  | add | subtract =>
    exact ⟨.sum, .sum_add (by simp) hleft.to_sum (term_of_maxPower hright hmax), by decide, hnext⟩
  | multiply | divide =>
    have hproduct := product_of_follow hleft hop
    rcases power_or_tail hright hmax with hpower | ⟨htail, hle⟩
    · exact ⟨.product, .product_multiply (by simp) hproduct hpower, by decide, hnext⟩
    · exact ⟨.term, .term_multiply (by simp) hproduct htail, by decide, Nat.le_trans hfollow hle⟩
  | power =>
    have hatom := atom_of_follow hleft hop
    rcases power_or_tail hright (Nat.le_trans (by decide) hmax) with hpower | ⟨htail, hle⟩
    · exact ⟨.power, .power_power hatom hpower, by decide, hnext⟩
    · exact ⟨.tail, .tail_power hatom htail, by decide, Nat.le_trans hfollow hle⟩

/-- What a successful call has read, together with what was read for it before. -/
def Call.Justifies (scope : Scope) (e : Expr) (d : Cursor) : Call → Prop
  | .expression _ minPower c => minPower ≤ 39 → Justified scope minPower c e d
  | .operand _ c => Justified scope 39 c e d
  | .extend _ minPower left _ c =>
    ∀ c₀, Justified scope minPower c₀ left c → Justified scope minPower c₀ e d
  | .attach _ link left _ c =>
    ∀ minPower c₀ c₁, Justified scope minPower c₀ left c₁ → c₁.peek.token.link? = some link →
      c = c₁.advance → Justified scope (link.bindingPower - 1) c₀ e d

/-- Soundness: whatever a call reads is a word of the grammar. For an operand and an expression it
is the word from the cursor on; an extension and an attachment make the word longer that was read in
front of them, wherever that began. -/
theorem justifies_of_parses {g : Grammar} {a : Call} {e : Expr} {h : Nat} {d : Cursor}
    (hrun : Parses g a e h d) : a.Justifies g.scope e d := by
  induction hrun with
  | expression _ _ _ ihop ihext =>
    intro hmin
    -- the operand is the first word that is extended
    exact ihext _ (ihop.mono hmin)
  | number htok =>
    exact ⟨.atom, _, .atom_number _, Cursor.reads_one htok (by simp), by decide, nextPower_le _⟩
  | name htok hscope =>
    exact ⟨.atom, _, .atom_name hscope, Cursor.reads_one htok (by simp), by decide, nextPower_le _⟩
  -- a sign has read a term, and nothing behind that goes on with it
  | plus htok hexp ih =>
    obtain ⟨s, w, hderives, hreads, hmin, -⟩ := ih (by decide)
    have hsign := Cursor.reads_one htok (by simp)
    exact ⟨.tail, _, .tail_plus (term_of_maxPower hderives hmin), hsign.trans hreads, by decide,
      hexp.power_le rfl⟩
  | minus htok hexp _ ih =>
    obtain ⟨s, w, hderives, hreads, hmin, -⟩ := ih (by decide)
    have hsign := Cursor.reads_one htok (by simp)
    exact ⟨.tail, _, .tail_minus (term_of_maxPower hderives hmin), hsign.trans hreads, by decide,
      hexp.power_le rfl⟩
  | group htok _ hclose ih =>
    obtain ⟨s, w, hderives, hreads, -⟩ := ih (by decide)
    have hopen := Cursor.reads_one htok (by simp)
    have hend := hreads.trans (Cursor.reads_one hclose (by simp))
    exact ⟨.atom, _, .atom_group hderives.to_sum, hopen.trans hend, by decide, nextPower_le _⟩
  | stop => exact fun c₀ hleft => hleft
  | link hlink hpow _ _ ihatt ihext =>
    intro c₀ hleft
    -- the link binds more tightly than the minimum, so what it makes is read by it as well
    exact ihext c₀ ((ihatt _ c₀ _ hleft hlink rfl).mono (Nat.le_sub_one_of_lt hpow))
  | operator hexp _ ih =>
    intro minPower c₀ c₁ hleft hlink hc
    obtain ⟨l, w, hl, hw, -, hop⟩ := hleft
    obtain ⟨r, v, hr, hv, hmax, hfollow⟩ := ih (rightPower_le _)
    rw [nextPower_of_link hlink] at hop
    subst hc
    obtain ⟨s, hs, hpow, hnext⟩ := derives_attach hl hop hr hmax hfollow (hexp.power_le rfl)
    have hsign := Cursor.reads_one (token_of_link hlink) (by simp)
    exact ⟨s, _, hs, hw.trans (hsign.trans hv), Nat.sub_le_of_le_add hpow, hnext⟩
  | argument hfun _ hclose _ ih =>
    intro minPower c₀ c₁ hleft hlink hc
    obtain ⟨l, w, hl, hw, -, hop⟩ := hleft
    obtain ⟨s, v, hv, hreads, -⟩ := ih (by decide)
    rw [nextPower_of_link hlink] at hop
    subst hc
    -- only an atom may stand in front of a parenthesis
    have hcallee := (atom_of_follow hl (Nat.le_trans (by decide) hop)).callee_of_atom hfun
    have hopen := Cursor.reads_one (token_of_link hlink) (by simp)
    have hend := hreads.trans (Cursor.reads_one hclose (by simp))
    exact ⟨.atom, _, .atom_call hcallee hv.to_sum, hw.trans (hopen.trans hend), by decide,
      nextPower_le _⟩

/-- What is accepted is a sum, with its tree. -/
theorem derives_of_parse {g : Grammar} {source : String} {lexemes : List Lexeme} {e : Expr}
    (hparse : g.parse source lexemes = .ok e) :
    Derives g.scope .sum (lexemes.map Lexeme.token) e := by
  obtain ⟨h, d, hrun, hend⟩ := parse_eq_ok.1 hparse
  obtain ⟨s, w, hderives, hreads, -⟩ := justifies_of_parses hrun (by decide)
  have htokens := hreads.tokens
  rw [Cursor.tokens, Cursor.tokens, hend, List.map_nil, List.append_nil] at htokens
  rw [show lexemes.map Lexeme.token = w from htokens]
  exact hderives.to_sum

/-! ## The grammar and the parser -/

/-- No sequence of tokens has two trees: the parser would have to find both. -/
theorem derives_unique {w : List Token} {e f : Expr} (he : Derives scope .sum w e)
    (hf : Derives scope .sum w f) : e = f := by
  -- any lexemes with these tokens will do
  let lexemes : List Lexeme := w.map fun t => ⟨t, "", 0, 0, Position.start⟩
  have htokens : lexemes.map Lexeme.token = w := by
    rw [List.map_map]
    exact List.map_id w
  rw [← htokens] at he hf
  have hparse : Grammar.parse ⟨scope, none⟩ "" lexemes = .ok e := parse_of_derives he
  rw [parse_of_derives hf] at hparse
  cases hparse
  rfl

/-- What the parser accepts is a sum, with its tree; and a sum is accepted with its tree, or it is
nested too deeply. There is at most one tree. -/
theorem parse_derives (scope : Scope) (source : String) (lexemes : List Lexeme) (e : Expr) :
    (Grammar.parse ⟨scope, some nestingLimit⟩ source lexemes = .ok e →
        Derives scope .sum (lexemes.map Lexeme.token) e) ∧
      (Derives scope .sum (lexemes.map Lexeme.token) e →
        (Grammar.parse ⟨scope, some nestingLimit⟩ source lexemes = .ok e ∨
          Grammar.parse ⟨scope, some nestingLimit⟩ source lexemes = .error .nestingTooDeep) ∧
        ∀ f, Derives scope .sum (lexemes.map Lexeme.token) f → f = e) := by
  refine ⟨derives_of_parse, fun hderives => ⟨?_, fun f hf => derives_unique hf hderives⟩⟩
  -- without a limit the sum is accepted; a limit can only make the parser give up
  have hunlimited : Grammar.parse ⟨scope, none⟩ source lexemes = .ok e := parse_of_derives hderives
  rw [← hunlimited]
  exact parse_cutShort ⟨scope, some nestingLimit⟩ source lexemes

/-- The tree of `x-x-x` subtracts the second `x` first, and it has no other tree. -/
theorem parse_derives_difference :
    let scope : Scope := fun name => if name = "x" then some (.constant 2) else none
    let x : Expr := .identifier ⟨"x", .constant 2⟩
    let lexemes : List Lexeme :=
      [⟨.name "x", "x", 0, 1, ⟨1, 1⟩⟩, ⟨.operator .subtract, "-", 1, 2, ⟨1, 2⟩⟩,
        ⟨.name "x", "x", 2, 3, ⟨1, 3⟩⟩, ⟨.operator .subtract, "-", 3, 4, ⟨1, 4⟩⟩,
        ⟨.name "x", "x", 4, 5, ⟨1, 5⟩⟩]
    let e : Expr := .binary .subtract (.binary .subtract x x) x
    Grammar.parse ⟨scope, some nestingLimit⟩ "x-x-x" lexemes = .ok e ∧
      Derives scope .sum (lexemes.map Lexeme.token) e ∧
      ∀ f, Derives scope .sum (lexemes.map Lexeme.token) f → f = e := by
  intro scope x lexemes e
  have hparse : Grammar.parse ⟨scope, some nestingLimit⟩ "x-x-x" lexemes = .ok e := by cbv
  obtain ⟨hsound, hcomplete⟩ := parse_derives scope "x-x-x" lexemes e
  exact ⟨hparse, hsound hparse, (hcomplete (hsound hparse)).2⟩

end Grammar

end UnitCalc
