import Mathlib
import UnitCalc.Answer
import UnitCalc.Proofs.Lexeme.MaximalMunch
import UnitCalc.Proofs.Parse.Scopes

/-!
# The same text under two scopes

The answer to a text depends on what its names mean, and on no other meaning; and to know more names
does no harm (`evaluate_settled`). Which names a text has is a matter of its lexemes alone.

* `letters_of_mentions`: they are words of ASCII letters.
* `apart_of_number_name`: the letters of a unit are no name, since a number takes all letters behind
  it along.
-/

namespace UnitCalc

/-- The name is a lexeme of the text. -/
def Mentions (text name : String) : Prop :=
  ∃ lexemes, tokenize text = .ok lexemes ∧ ∃ l ∈ lexemes, l.token = .name name

/-! ## The names of a text -/

/-- Only the rule of names makes a name, and out of its own letters. -/
theorem Rule.Makes.name_inv {r : Rule} {w : List Char} {name : String}
    (h : r.Makes w (.name name)) : r = .name ∧ name = String.ofList w := by
  generalize ht : Token.name name = t at h
  cases h with
  | name w => exact ⟨rfl, Token.name.inj ht⟩
  | number | operator | openParen | closeParen => exact absurd ht (by simp)

theorem Rule.Makes.number_inv {r : Rule} {w : List Char} {q : Quantity}
    (h : r.Makes w (.number q)) : r = .number := by
  generalize ht : Token.number q = t at h
  cases h with
  | number => rfl
  | name | operator | openParen | closeParen => exact absurd ht (by simp)

/-- A name is a word of letters, and those are its text. -/
theorem Lexeme.CutFrom.letters {text : List Char} {l : Lexeme} {name : String}
    (hcut : l.CutFrom text) (hname : l.token = .name name) :
    name = l.text ∧ l.text.toList ≠ [] ∧ ∀ c ∈ l.text.toList, c.isAlpha = true := by
  obtain ⟨_, _, r, _, _, _, hlongest, hmakes⟩ := hcut
  rw [hname] at hmakes
  obtain ⟨rfl, heq⟩ := hmakes.name_inv
  rw [String.ofList_toList] at heq
  exact ⟨heq, mem_someOf.1 hlongest.mem⟩

/-- The names of a text are words of ASCII letters. -/
theorem letters_of_mentions {text name : String} (h : Mentions text name) :
    name ≠ "" ∧ ∀ c ∈ name.toList, c.isAlpha = true := by
  obtain ⟨lexemes, htokenize, l, hl, hname⟩ := h
  obtain ⟨rfl, hne, hletters⟩ := ((decomposition_of_tokenize htokenize).cut l hl).letters hname
  exact ⟨mt String.toList_eq_nil_iff.2 hne, hletters⟩

/-! ## Names and numbers -/

/-- A number with one more letter is still of the form of a number. -/
theorem Rule.mem_number_letter {w : List Char} {c : Char} (hw : w ∈ number.language)
    (hc : c.isAlpha = true) : w ++ [c] ∈ number.language := by
  obtain ⟨n, s, hn, hs, rfl⟩ := mem_number.1 hw
  refine mem_number.2 ⟨n, s ++ [c], hn, .inr (mem_attachment.2 ?_), List.append_assoc n s [c]⟩
  -- the letter begins an attachment or makes it longer
  rcases hs with rfl | hs
  · exact ⟨c, [], .inl hc, by simp, rfl⟩
  · obtain ⟨a, rest, ha, hrest, rfl⟩ := mem_attachment.1 hs
    refine ⟨a, rest ++ [c], ha, fun b hb => ?_, rfl⟩
    rcases List.mem_append.1 hb with hb | hb
    · exact hrest b hb
    · rw [List.mem_singleton.1 hb, Char.isAlphanum, hc]
      rfl

/-- Behind the longest number there is no letter, since with it the number would be longer. -/
theorem Longest.not_letter {w rest : List Char} {c : Char}
    (h : Longest .number (w ++ c :: rest) w) : c.isAlpha = false := by
  by_contra hc
  rw [Bool.not_eq_false] at hc
  have hlonger := h.longest _ _ (Rule.mem_number_letter h.mem hc) ⟨rest, by simp⟩
  simp at hlonger

/-- No name begins where a number ends. -/
theorem stop_ne_start_of_number_name {text : List Char} {l m : Lexeme} {q : Quantity}
    {name : String} (hl : l.CutFrom text) (hm : m.CutFrom text) (hnumber : l.token = .number q)
    (hname : m.token = .name name) : l.stop ≠ m.start := by
  intro hmeet
  obtain ⟨-, hne, hletters⟩ := hm.letters hname
  obtain ⟨before, rest, r, htext, hstart, hstop, hlongest, hmakes⟩ := hl
  obtain ⟨before', rest', _, htext', hstart', -⟩ := hm
  rw [hnumber] at hmakes
  obtain rfl := hmakes.number_inv
  -- the text in front of the name is the one in front of the number, with the number
  have hbytes : byteLength (before ++ l.text.toList) = byteLength before' := by
    rw [byteLength_append, ← hstart, ← hstop, hmeet, hstart']
  have hsame : before ++ l.text.toList ++ rest = before' ++ (m.text.toList ++ rest') := by
    rw [List.append_assoc, ← htext, htext']
  have hto := prefix_of_byteLength_le hsame hbytes.le
  have hfrom := prefix_of_byteLength_le hsame.symm hbytes.ge
  rw [hto.eq_of_length_le hfrom.length_le] at hsame
  have hrest := List.append_cancel_left hsame
  -- so the name follows the number at once, and its first letter would belong to the number
  obtain ⟨c, tail, hcons⟩ := List.exists_cons_of_ne_nil hne
  rw [hrest, hcons] at hlongest
  have hc := hletters c (by simp [hcons])
  rw [hlongest.not_letter] at hc
  exact absurd hc (by simp)

/-- Between a number and a name behind it there is something else. -/
theorem apart_of_number_name {text : String} {lexemes : List Lexeme} {l m : Lexeme} {q : Quantity}
    {name : String} (htokenize : tokenize text = .ok lexemes) (hl : l ∈ lexemes) (hm : m ∈ lexemes)
    (hnumber : l.token = .number q) (hname : m.token = .name name) :
    m.stop ≤ l.start ∨ l.stop < m.start := by
  have h := decomposition_of_tokenize htokenize
  have hne : l ≠ m := by
    rintro rfl
    exact absurd (hnumber.symm.trans hname) (by simp)
  have hmeet := stop_ne_start_of_number_name (h.cut l hl) (h.cut m hm) hnumber hname
  -- lexemes do not overlap, so one of the two is in front of the other
  have hordered : lexemes.Pairwise fun a b => a.stop ≤ b.start ∨ b.stop ≤ a.start :=
    h.ordered.imp .inl
  have hsymm : Std.Symm fun a b : Lexeme => a.stop ≤ b.start ∨ b.stop ≤ a.start :=
    ⟨fun _ _ => Or.symm⟩
  rcases hordered.forall hl hm hne with hle | hle
  · exact .inr (Nat.lt_of_le_of_ne hle hmeet)
  · exact .inl hle

/-! ## Answers under two scopes -/

variable {A B : Scope} {text : String}

/-- A scope that keeps the meanings of the names of a text keeps the answer, unless a name without a
meaning was what the answer failed at. -/
theorem evaluate_settled (h : ∀ name, Mentions text name → A name ≠ none → B name = A name) :
    evaluate B text = evaluate A text ∨
      ∃ name position, evaluate A text = .error (.unknownIdentifier name position) ∧
        Mentions text name ∧ A name ≠ B name := by
  unfold evaluate Expr.ofText
  cases htokenize : tokenize text with
  | error fault => exact .inl rfl
  | ok lexemes =>
    simp only [bind, Except.bind]
    cases checkArrangement lexemes with
    | error fault => exact .inl rfl
    | ok =>
      -- the first two stages do not look at the scope, so the parser decides
      have hextended : A.ExtendedOn B lexemes := fun l hl name hname =>
        h name ⟨lexemes, htokenize, l, hl, hname⟩
      rcases Grammar.parse_settled (some nestingLimit) hextended text with
        heq | ⟨name, position, hA, hmember, hdiffer⟩
      · left
        dsimp only
        rw [heq]
      · right
        dsimp only
        rw [hA]
        exact ⟨name, position, rfl, ⟨lexemes, htokenize, hmember⟩, hdiffer⟩

/-- Scopes that agree on the names of a text give it the same answer. -/
theorem evaluate_eq_of_agree (h : ∀ name, Mentions text name → A name = B name) :
    evaluate A text = evaluate B text := by
  rcases evaluate_settled fun name hname _ => (h name hname).symm with
    heq | ⟨name, _, _, hname, hdiffer⟩
  · exact heq.symm
  · exact absurd (h name hname) hdiffer

/-- Only the names among the lexemes of a text are looked up in the scope. They are words of ASCII
letters, and the unit of a number is none of them: there is a gap between a number and a name behind
it. A scope that knows more names than another one gives the same answer, fault or not, unless the
other one gave up at a name that it does not know. -/
theorem evaluate_scopes (A B : Scope) (text : String) :
    ((∀ name, Mentions text name → A name = B name) → evaluate A text = evaluate B text) ∧
      ((∀ name, name ≠ "" → (∀ c ∈ name.toList, c.isAlpha = true) → A name = B name) →
        evaluate A text = evaluate B text) ∧
      (∀ (unit : CssUnit) (meaning : Option Binding), ¬ Mentions text unit.suffix →
        evaluate (Function.update A unit.suffix meaning) text = evaluate A text) ∧
      (∀ lexemes, tokenize text = .ok lexemes → ∀ l ∈ lexemes, ∀ m ∈ lexemes, ∀ q name,
        l.token = .number q → m.token = .name name → m.stop ≤ l.start ∨ l.stop < m.start) ∧
      ((∀ name meaning, A name = some meaning → B name = some meaning) →
        (∀ name position, evaluate A text ≠ .error (.unknownIdentifier name position)) →
          evaluate B text = evaluate A text) := by
  refine ⟨evaluate_eq_of_agree, fun hletters => ?_, fun unit meaning hunit => ?_,
    fun lexemes htokenize l hl m hm q name => apart_of_number_name htokenize hl hm,
    fun hextends hknown => ?_⟩
  · apply evaluate_eq_of_agree
    intro name hname
    obtain ⟨hne, halpha⟩ := letters_of_mentions hname
    exact hletters name hne halpha
  · apply evaluate_eq_of_agree
    intro name hname
    have hne : name ≠ unit.suffix := by
      rintro rfl
      exact hunit hname
    exact Function.update_of_ne hne meaning A
  · have hkept : ∀ name, Mentions text name → A name ≠ none → B name = A name := by
      intro name _ hA
      obtain ⟨meaning, hmeaning⟩ := Option.ne_none_iff_exists'.1 hA
      rw [hmeaning]
      exact hextends name meaning hmeaning
    rcases evaluate_settled hkept with heq | ⟨name, position, hunknown, -⟩
    · exact heq
    · exact absurd hunknown (hknown name position)

/-- A name that is spelled like the unit in the text does not disturb it. -/
theorem evaluate_scopes_px :
    let A : Scope := fun name => if name = "x" then some (.constant 2) else none
    let B : Scope := Function.update A "px" (some (.constant 7))
    let answer := Answer.ofQuantity ⟨Binary64.toFloat 0 * 2, some .px, false⟩
    ¬ Mentions "0px * x" "px" ∧ evaluate A "0px * x" = .ok answer ∧
      evaluate B "0px * x" = .ok answer := by
  intro A B answer
  have htokenize : tokenize "0px * x" = .ok
      [⟨.number ⟨Binary64.toFloat 0, some .px, false⟩, "0px", 0, 3, ⟨1, 1⟩⟩,
        ⟨.operator .multiply, "*", 4, 5, ⟨1, 5⟩⟩, ⟨.name "x", "x", 6, 7, ⟨1, 7⟩⟩] := by cbv
  have hunit : ¬ Mentions "0px * x" "px" := by
    rintro ⟨lexemes, hlexemes, l, hl, hname⟩
    cases htokenize.symm.trans hlexemes
    simp only [List.mem_cons, List.not_mem_nil, or_false] at hl
    rcases hl with rfl | rfl | rfl <;> simp at hname
  have hread : Expr.ofText A "0px * x" = .ok (.binary .multiply
      (.literal ⟨Binary64.toFloat 0, some .px, false⟩) (.identifier ⟨"x", .constant 2⟩)) := by
    cbv
  have hanswer : evaluate A "0px * x" = .ok answer := by
    unfold evaluate
    rw [hread]
    rfl
  have hupdate := (evaluate_scopes A B "0px * x").2.2.1 .px (some (.constant 7)) hunit
  exact ⟨hunit, hanswer, hupdate.trans hanswer⟩

end UnitCalc
