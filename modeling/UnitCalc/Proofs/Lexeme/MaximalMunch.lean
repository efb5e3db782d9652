import Mathlib
import UnitCalc.Proofs.Lexeme.Rules

/-!
# Maximal munch

A `Decomposition` of a text up to a byte offset says what the lexemes in front of the offset are,
without saying how they are found: their spans follow one another, each one is the longest start in
the language of any rule of the text that begins there, its token is the one of that rule, and
everything between the spans is blank.

Cutting a text keeps such a decomposition of what is already cut off. One step adds a blank
(`Decomposition.blank`) or a lexeme (`Decomposition.lexeme`), and the run takes it to the end of the
text or to the place where no lexeme begins (`decomposition_of_pieces`). `tokenize_maximalMunch` is
the run from the start.
-/

namespace UnitCalc

/-! ## Byte offsets -/

theorem byteLength_pos {w : List Char} (hne : w ≠ []) : 0 < byteLength w := by
  obtain ⟨c, rest, rfl⟩ := List.exists_cons_of_ne_nil hne
  rw [byteLength_cons]
  have := c.utf8Size_pos
  omega

/-- Of two starts of a text, the one with fewer bytes is a start of the other. -/
theorem prefix_of_byteLength_le {u v u' v' : List Char} (h : u ++ v = u' ++ v')
    (hle : byteLength u ≤ byteLength u') : u <+: u' := by
  have hu : u <+: u' ++ v' := h ▸ List.prefix_append u v
  rcases List.prefix_or_prefix_of_prefix hu (List.prefix_append u' v') with hshort | ⟨more, hmore⟩
  · exact hshort
  · -- the longer start has no bytes that the shorter one has not
    rw [← hmore, byteLength_append] at hle
    cases more with
    | nil => rw [← hmore, List.append_nil]
    | cons c more =>
      have := byteLength_pos (w := c :: more) (by simp)
      omega

/-- Behind a start that is not empty, dropping it leaves what the text goes on with. -/
theorem drop_of_append_eq_cons {c : Char} {w rest tail : List Char} (hne : w ≠ [])
    (h : w ++ tail = c :: rest) : rest.drop (w.length - 1) = tail := by
  obtain ⟨a, w', rfl⟩ := List.exists_cons_of_ne_nil hne
  obtain ⟨-, rfl⟩ := List.cons.inj h
  exact List.drop_left

/-! ## Decompositions -/

/-- The lexeme is the longest one at its place in the text, and carries the token of its rule. -/
def Lexeme.CutFrom (text : List Char) (l : Lexeme) : Prop :=
  ∃ before rest r, text = before ++ (l.text.toList ++ rest) ∧ l.start = byteLength before ∧
    l.stop = l.start + byteLength l.text.toList ∧ Longest r (l.text.toList ++ rest) l.text.toList ∧
      r.Makes l.text.toList l.token

/-- The lexeme covers the character at the given byte offset. -/
def Lexeme.Covers (l : Lexeme) (offset : Nat) : Prop := l.start ≤ offset ∧ offset < l.stop

/-- The lexemes are those of the text in front of the byte offset `stop`. -/
structure Decomposition (text : List Char) (stop : Nat) (lexemes : List Lexeme) : Prop where
  nonempty : ∀ l ∈ lexemes, l.start < l.stop
  ordered : lexemes.Pairwise fun a b => a.stop ≤ b.start
  within : ∀ l ∈ lexemes, l.stop ≤ stop
  cut : ∀ l ∈ lexemes, l.CutFrom text
  blanks : ∀ before c rest, text = before ++ c :: rest → byteLength before < stop →
    (∀ l ∈ lexemes, ¬ l.Covers (byteLength before)) → isBlank c = true

namespace Decomposition

variable {text before rest w : List Char} {lexemes : List Lexeme}

theorem nil (text : List Char) : Decomposition text 0 [] where
  nonempty := by simp
  ordered := .nil
  within := by simp
  cut := by simp
  blanks := by simp

/-- A blank behind what is cut off already adds no lexeme. -/
theorem blank {c : Char} (h : Decomposition text (byteLength before) lexemes)
    (htext : text = before ++ c :: rest) (hc : isBlank c = true) :
    Decomposition text (byteLength before + c.utf8Size) lexemes where
  nonempty := h.nonempty
  ordered := h.ordered
  within l hl := Nat.le_add_right_of_le (h.within l hl)
  cut := h.cut
  blanks := by
    intro before' c' rest' htext' hlt houtside
    by_cases hbefore : byteLength before' < byteLength before
    · exact h.blanks before' c' rest' htext' hbefore houtside
    · -- then the two places are the same
      obtain ⟨more, rfl⟩ := prefix_of_byteLength_le (htext.symm.trans htext') (by omega)
      have hsame := htext.symm.trans htext'
      rw [List.append_assoc] at hsame
      have htail := List.append_cancel_left hsame
      cases more with
      | nil => rw [← (List.cons.inj htail).1, hc]
      | cons a more =>
        rw [List.cons_append] at htail
        rw [byteLength_append, byteLength_cons, ← (List.cons.inj htail).1] at hlt
        omega

/-- The longest lexeme behind what is cut off already is the next one. -/
theorem lexeme {r : Rule} {t : Token} (position : Position)
    (h : Decomposition text (byteLength before) lexemes) (htext : text = before ++ (w ++ rest))
    (hlongest : Longest r (w ++ rest) w) (hmakes : r.Makes w t) :
    Decomposition text (byteLength before + byteLength w)
      (lexemes ++ [⟨t, String.ofList w, byteLength before, byteLength before + byteLength w,
        position⟩]) where
  nonempty := by
    intro l hl
    rcases List.mem_append.1 hl with hl | hl
    · exact h.nonempty l hl
    · obtain ⟨c, tail, rfl, -⟩ := Rule.begins_of_mem hlongest.mem
      rw [List.mem_singleton.1 hl]
      exact Nat.lt_add_of_pos_right (byteLength_pos (by simp))
  ordered := by
    refine List.pairwise_append.2 ⟨h.ordered, List.pairwise_singleton .., fun a ha b hb => ?_⟩
    rw [List.mem_singleton.1 hb]
    exact h.within a ha
  within := by
    intro l hl
    rcases List.mem_append.1 hl with hl | hl
    · exact Nat.le_add_right_of_le (h.within l hl)
    · rw [List.mem_singleton.1 hl]
  cut := by
    intro l hl
    rcases List.mem_append.1 hl with hl | hl
    · exact h.cut l hl
    · rw [List.mem_singleton.1 hl]
      refine ⟨before, rest, r, ?_⟩
      rw [String.toList_ofList]
      exact ⟨htext, rfl, rfl, hlongest, hmakes⟩
  blanks := by
    intro before' c' rest' htext' hlt houtside
    have hnew := houtside _ (List.mem_append_right _ (List.mem_singleton_self _))
    -- what the new lexeme does not cover lies in front of it
    have hbefore : byteLength before' < byteLength before := by
      by_contra hle
      exact hnew ⟨Nat.le_of_not_lt hle, hlt⟩
    exact h.blanks before' c' rest' htext' hbefore fun l hl =>
      houtside l (List.mem_append_left _ hl)

/-- No lexeme is the end of the input. -/
theorem token_ne_endOfInput {stop : Nat} (h : Decomposition text stop lexemes) :
    ∀ l ∈ lexemes, l.token ≠ .endOfInput := by
  intro l hl hend
  obtain ⟨_, _, r, _, _, _, _, hmakes⟩ := h.cut l hl
  rw [hend] at hmakes
  exact hmakes.ne_endOfInput rfl

/-- Every number is a literal. -/
theorem literal_of_number {stop : Nat} (h : Decomposition text stop lexemes) :
    ∀ l ∈ lexemes, ∀ q, l.token = .number q → Literal l.text.toList q := by
  intro l hl q hq
  obtain ⟨_, _, r, _, _, _, _, hmakes⟩ := h.cut l hl
  rw [hq] at hmakes
  exact hmakes.literal

end Decomposition

/-! ## The run -/

/-- What the lexemes of a text have to be; and if there are none, why. Then the lexemes in front of
some character that is not blank are known, and no lexeme begins with that character. -/
def MaximalMunch (text : List Char) : Except Fault (List Lexeme) → Prop
  | .ok lexemes => Decomposition text (byteLength text) lexemes
  | .error fault => ∃ lexemes before c rest, text = before ++ c :: rest ∧ isBlank c = false ∧
      Decomposition text (byteLength before) lexemes ∧ NoLexeme (c :: rest) fault

/-- The lexemes that a layout comes to. -/
def Layout.laid (layout : Layout) (ps : List Piece) : List Lexeme :=
  (ps.foldl Layout.put layout).lexemes.reverse

theorem map_laid_cons (layout : Layout) (piece : Piece) (result : Except Fault (List Piece)) :
    (result.map (piece :: ·)).map layout.laid = result.map (layout.put piece).laid := by
  cases result <;> rfl

/-- From the decomposition of what is cut off already to that of the whole text, or to the place
where it ends. The induction is on what is left of the text. -/
theorem decomposition_of_pieces {text : List Char} (before rest : List Char) (layout : Layout)
    (htext : text = before ++ rest) (hoffset : layout.offset = byteLength before)
    (h : Decomposition text layout.offset layout.lexemes.reverse) :
    MaximalMunch text ((pieces rest).map layout.laid) := by
  induction hlength : rest.length using Nat.strongRecOn generalizing before rest layout with
  | ind n ih =>
    cases rest with
    | nil =>
      rw [List.append_nil] at htext
      subst htext
      rw [pieces_nil]
      show Decomposition text (byteLength text) layout.lexemes.reverse
      rw [← hoffset]
      exact h
    | cons c rest =>
      rw [hoffset] at h
      rw [pieces_cons]
      by_cases hc : isBlank c = true
      · -- a blank moves the layout on and adds nothing to it
        have hnext : (layout.put (.blank c)).offset = byteLength before + c.utf8Size := by
          rw [← hoffset]
          exact congrArg (layout.offset + ·) (Nat.zero_add _)
        rw [if_pos hc, map_laid_cons]
        refine ih rest.length (by rw [← hlength]; simp) (before ++ [c]) rest _ ?_ ?_ ?_ rfl
        · rw [htext, List.append_assoc]
          rfl
        · rw [hnext, byteLength_append]
          exact congrArg (byteLength before + ·) (Nat.zero_add _).symm
        · rw [hnext]
          exact h.blank htext hc
      · rw [if_neg hc]
        cases hfirst : firstLexeme c rest with
        | error fault =>
          exact ⟨_, before, c, rest, htext, Bool.eq_false_iff.2 hc, h,
            noLexeme_of_firstLexeme hfirst⟩
        | ok found =>
          obtain ⟨t, w⟩ := found
          -- the step: the longest word of any rule is cut off, and what is left is shorter
          obtain ⟨r, hlongest, hmakes⟩ := firstLexeme_eq_ok.1 hfirst
          obtain ⟨tail, htail⟩ := hlongest.start
          have hne : w ≠ [] := hlongest.ne_nil
          have hdrop : rest.drop (w.length - 1) = tail := drop_of_append_eq_cons hne htail
          have hshort : tail.length < n := by
            have hall := congrArg List.length htail
            have hpos := List.length_pos_iff.2 hne
            rw [List.length_append, hlength] at hall
            omega
          rw [← htail] at htext hlongest
          have hstep := h.lexeme layout.position htext hlongest hmakes
          have hnext : (layout.put (.lexeme t w)).offset = byteLength before + byteLength w := by
            rw [← hoffset]
            rfl
          have hput : (layout.put (.lexeme t w)).lexemes.reverse = layout.lexemes.reverse ++
                [⟨t, String.ofList w, layout.offset, layout.offset + byteLength w,
                  layout.position⟩] :=
            List.reverse_cons
          dsimp only
          rw [hdrop, map_laid_cons]
          refine ih tail.length hshort (before ++ w) tail _ ?_ ?_ ?_ rfl
          · rw [htext, List.append_assoc]
          · rw [hnext, byteLength_append]
          · rw [hnext, hput, hoffset]
            exact hstep

/-- The whole run, with nothing cut off at its start. -/
theorem maximalMunch_run (text : String) : MaximalMunch text.toList (tokenize text) :=
  decomposition_of_pieces [] text.toList ⟨0, Position.start, []⟩ rfl rfl (.nil _)

/-- The lexemes of a text are its decomposition. -/
theorem decomposition_of_tokenize {text : String} {lexemes : List Lexeme}
    (h : tokenize text = .ok lexemes) :
    Decomposition text.toList (byteLength text.toList) lexemes := by
  have hrun := maximalMunch_run text
  rw [h] at hrun
  exact hrun

/-- The lexemes of a text are its decomposition into longest lexemes, none of them the end of the
input and all its numbers literals. If there is none, then part of the text has one, and behind it
no lexeme begins. -/
theorem tokenize_maximalMunch (text : String) :
    MaximalMunch text.toList (tokenize text) ∧
      ∀ lexemes, tokenize text = .ok lexemes →
        (∀ l ∈ lexemes, l.token ≠ .endOfInput) ∧
          ∀ l ∈ lexemes, ∀ q, l.token = .number q → Literal l.text.toList q := by
  refine ⟨maximalMunch_run text, fun lexemes htokenize => ?_⟩
  have hdecomposition := decomposition_of_tokenize htokenize
  exact ⟨hdecomposition.token_ne_endOfInput, hdecomposition.literal_of_number⟩

end UnitCalc
