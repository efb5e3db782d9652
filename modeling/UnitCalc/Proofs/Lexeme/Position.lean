import Mathlib
import UnitCalc.Proofs.Lexeme.MaximalMunch
import UnitCalc.Proofs.Results

/-!
# Places of characters and lexemes

The place of a character is found by walking over everything in front of it. A text is laid out in
one walk instead, from one piece to the next, and the two ways agree.

* `Position.advance_start`: a walk counts the line feeds and the characters behind the last one.
* `Position.precedes_advance`: a walk leads to a later place, so that different characters have
  different places (`Position.ofOffset_precedes`).
* `Position.visit`: a walk from one offset to the next, which comes through their places
  (`Position.visit_eq`).
* `Layout.Behind`: the layout has come to the place behind some start of the text, and every lexeme
  in it has the place of its first character. Each piece keeps this (`Layout.Behind.put`), and the
  pieces of a text are the whole text (`pieces_chars`).
-/

namespace UnitCalc

/-! ## Offsets between characters -/

/-- The offset is the one between two characters of the text, or at one of its ends. -/
def IsBoundary (text : List Char) (offset : Nat) : Prop :=
  ∃ before after, text = before ++ after ∧ offset = byteLength before

namespace Position

/-- What stands in front of the offset behind a part is that part. -/
theorem before_byteLength (u v : List Char) : before (u ++ v) (byteLength u) = u := by
  induction u with
  | nil =>
    cases v with
    | nil => rfl
    | cons c v =>
      show (if 0 < c.utf8Size then [] else c :: before v (0 - c.utf8Size)) = []
      rw [if_pos c.utf8Size_pos]
  | cons c u ih =>
    rw [List.cons_append, before, byteLength_cons, if_neg (by omega), Nat.add_sub_cancel_left, ih]

theorem ofOffset_byteLength (u v : List Char) :
    ofOffset (u ++ v) (byteLength u) = start.advance u := by
  rw [ofOffset, before_byteLength]

/-! ## Lines and columns -/

theorem advance_concat (p : Position) (walked : List Char) (c : Char) :
    p.advance (walked ++ [c]) = (p.advance walked).step c :=
  p.advance_append walked [c]

/-- The line counts the line feeds that have been passed, the column the characters behind the last
one of them. The induction is on the end of the walk, where the next step is taken. -/
theorem advance_start (walked : List Char) :
    start.advance walked =
      ⟨1 + walked.count '\n', 1 + (walked.rtakeWhile fun c => c ≠ '\n').length⟩ := by
  induction walked using List.reverseRecOn with
  | nil => rfl
  | append_singleton walked c ih =>
    rw [advance_concat, ih, step]
    by_cases hc : c = '\n'
    · subst hc
      rw [if_pos rfl, List.count_append, List.rtakeWhile_concat_neg _ _ _ (by simp)]
      simp [Nat.add_assoc]
    · rw [if_neg hc, List.count_append, List.rtakeWhile_concat_pos _ _ _ (by simpa using hc)]
      simp [hc, Nat.add_assoc]

/-! ## Order -/

/-- The place comes before the other one: in a line above it, or further left in the same line. -/
def Precedes (p q : Position) : Prop := p.line < q.line ∨ p.line = q.line ∧ p.column < q.column

theorem Precedes.trans {p q r : Position} (hpq : p.Precedes q) (hqr : q.Precedes r) :
    p.Precedes r := by
  unfold Precedes at *
  omega

theorem precedes_step (p : Position) (c : Char) : p.Precedes (p.step c) := by
  unfold step
  split
  · exact .inl (Nat.lt_succ_self _)
  · exact .inr ⟨rfl, Nat.lt_succ_self _⟩

/-- A walk over something comes to a later place. -/
theorem precedes_advance (p : Position) {walked : List Char} (hne : walked ≠ []) :
    p.Precedes (p.advance walked) := by
  induction walked generalizing p with
  | nil => exact absurd rfl hne
  | cons c walked ih =>
    have hstep := p.precedes_step c
    cases walked with
    | nil => exact hstep
    | cons d walked => exact hstep.trans (ih (p.step c) (by simp))

/-- The order of the characters is the order of their places. -/
theorem ofOffset_precedes {text : List Char} {i j : Nat} (hi : IsBoundary text i)
    (hj : IsBoundary text j) (hlt : i < j) :
    (ofOffset text i).Precedes (ofOffset text j) := by
  obtain ⟨u, v, rfl, rfl⟩ := hi
  obtain ⟨u', v', htext, rfl⟩ := hj
  obtain ⟨between, rfl⟩ := prefix_of_byteLength_le htext hlt.le
  have hne : between ≠ [] := by
    rintro rfl
    rw [List.append_nil] at hlt
    exact absurd hlt (Nat.lt_irrefl _)
  rw [ofOffset_byteLength, htext, ofOffset_byteLength, advance_append]
  exact precedes_advance _ hne

end Position

/-! ## One walk over a text

The places of several offsets need not each be found from the start of the text. It is enough to
walk on from one to the next, over the characters in between. -/

namespace Position

/-- The characters between two offsets of a text. -/
def between (text : List Char) (i j : Nat) : List Char :=
  (before text j).drop (before text i).length

/-- The places of the given offsets, each reached from the one before it. The walk begins at the
offset `i`, which has the place `p`. -/
def visit (text : List Char) (i : Nat) (p : Position) : List Nat → List Position
  | [] => []
  | j :: later => p.advance (between text i j) :: visit text j (p.advance (between text i j)) later

variable {text : List Char} {i j : Nat}

theorem advance_between (hi : IsBoundary text i) (hj : IsBoundary text j) (hle : i ≤ j) :
    (ofOffset text i).advance (between text i j) = ofOffset text j := by
  obtain ⟨u, v, rfl, rfl⟩ := hi
  obtain ⟨u', v', htext, rfl⟩ := hj
  obtain ⟨w, rfl⟩ := prefix_of_byteLength_le htext hle
  have hbetween : between (u ++ v) (byteLength u) (byteLength (u ++ w)) = w := by
    rw [between, before_byteLength, htext, before_byteLength, List.drop_left]
  rw [hbetween, ofOffset_byteLength, htext, ofOffset_byteLength, advance_append]

/-- A walk that goes on from each offset to the next comes through the places of all of them. -/
theorem visit_eq {offsets : List Nat} (hi : IsBoundary text i)
    (hall : ∀ j ∈ offsets, IsBoundary text j) (hordered : (i :: offsets).Pairwise (· ≤ ·)) :
    visit text i (ofOffset text i) offsets = offsets.map (ofOffset text) := by
  induction offsets generalizing i with
  | nil => rfl
  | cons j later ih =>
    obtain ⟨hbefore, hlater⟩ := List.pairwise_cons.1 hordered
    obtain ⟨hj, hrest⟩ := List.forall_mem_cons.1 hall
    rw [visit, advance_between hi hj (hbefore j List.mem_cons_self), ih hj hrest hlater,
      List.map_cons]

end Position

/-! ## Lexemes -/

/-- Nothing of a text is lost when it is cut into pieces. -/
theorem pieces_chars {text : List Char} {ps : List Piece} (h : pieces text = .ok ps) :
    ps.flatMap Piece.chars = text := by
  induction hlength : text.length using Nat.strongRecOn generalizing text ps with
  | ind n ih =>
    cases text with
    | nil =>
      rw [pieces_nil] at h
      cases h
      rfl
    | cons c rest =>
      rw [List.length_cons] at hlength
      rw [pieces_cons] at h
      split at h
      · obtain ⟨behind, hbehind, rfl⟩ := exists_of_map_eq_ok h
        rw [List.flatMap_cons, ih rest.length (by omega) hbehind rfl]
        rfl
      · split at h
        · rename_i t w hfirst
          obtain ⟨behind, hbehind, rfl⟩ := exists_of_map_eq_ok h
          obtain ⟨r, hlongest, -⟩ := firstLexeme_eq_ok.1 hfirst
          obtain ⟨tail, htail⟩ := hlongest.start
          rw [drop_of_append_eq_cons hlongest.ne_nil htail] at hbehind
          have hshort : tail.length < n := by
            have hall := congrArg List.length htail
            have hpos := List.length_pos_iff.2 hlongest.ne_nil
            rw [List.length_append, List.length_cons] at hall
            omega
          rw [List.flatMap_cons, ih tail.length hshort hbehind rfl]
          exact htail
        · exact absurd h (by simp)

/-- The layout has come to the end of `before`, and its lexemes are where they say they are. -/
structure Layout.Behind (text before : List Char) (layout : Layout) : Prop where
  offset : layout.offset = byteLength before
  position : layout.position = Position.start.advance before
  lexemes : ∀ l ∈ layout.lexemes, l.position = Position.ofOffset text l.start

namespace Layout.Behind

variable {text before after : List Char} {layout : Layout}

/-- At the start nothing has been walked over, and there are no lexemes. -/
theorem start (text : List Char) : Layout.Behind text [] ⟨0, Position.start, []⟩ :=
  ⟨rfl, rfl, by simp⟩

/-- A piece takes the layout to the end of the piece. Its lexeme, if it is one, begins where the
layout was. -/
theorem put {piece : Piece} (h : layout.Behind text before)
    (htext : text = before ++ (piece.chars ++ after)) :
    (layout.put piece).Behind text (before ++ piece.chars) := by
  have hoffset : layout.offset + byteLength piece.chars = byteLength (before ++ piece.chars) := by
    rw [h.offset, byteLength_append]
  have hposition : layout.position.advance piece.chars =
      Position.start.advance (before ++ piece.chars) := by
    rw [h.position, Position.advance_append]
  cases piece with
  | blank c => exact ⟨hoffset, hposition, h.lexemes⟩
  | lexeme t w =>
    refine ⟨hoffset, hposition, List.forall_mem_cons.2 ⟨?_, h.lexemes⟩⟩
    -- the new lexeme begins where the layout had come to
    show layout.position = Position.ofOffset text layout.offset
    rw [h.position, h.offset, htext, Position.ofOffset_byteLength]

/-- All pieces take the layout to the end of the last one. -/
theorem foldl {ps : List Piece} (h : layout.Behind text before)
    (htext : text = before ++ (ps.flatMap Piece.chars ++ after)) :
    (ps.foldl Layout.put layout).Behind text (before ++ ps.flatMap Piece.chars) := by
  induction ps generalizing before layout with
  | nil =>
    rw [List.flatMap_nil, List.append_nil]
    exact h
  | cons piece ps ih =>
    rw [List.flatMap_cons, List.append_assoc] at htext
    rw [List.flatMap_cons, ← List.append_assoc]
    refine ih (h.put htext) ?_
    rw [htext, List.append_assoc]

end Layout.Behind

/-- The place of a lexeme is the one that its offset has in the text. -/
theorem position_of_tokenize {text : String} {lexemes : List Lexeme}
    (h : tokenize text = .ok lexemes) :
    ∀ l ∈ lexemes, l.position = Position.ofOffset text.toList l.start := by
  obtain ⟨ps, hpieces, rfl⟩ := exists_of_map_eq_ok h
  have htext : text.toList = [] ++ (ps.flatMap Piece.chars ++ []) := by
    rw [List.nil_append, List.append_nil, pieces_chars hpieces]
  have hend := (Layout.Behind.start text.toList).foldl htext
  intro l hl
  exact hend.lexemes l (List.mem_reverse.1 hl)

theorem Lexeme.CutFrom.isBoundary {text : List Char} {l : Lexeme} (h : l.CutFrom text) :
    IsBoundary text l.start := by
  obtain ⟨before, rest, -, htext, hstart, -⟩ := h
  exact ⟨before, _, htext, hstart⟩

/-- The places of lexemes come in the order in which they stand. -/
theorem positions_increase {text : String} {lexemes : List Lexeme}
    (h : tokenize text = .ok lexemes) :
    lexemes.Pairwise fun a b => a.position.Precedes b.position := by
  have hcut := decomposition_of_tokenize h
  refine hcut.ordered.imp_of_mem fun {a b} ha hb hle => ?_
  have hlt : a.start < b.start := Nat.lt_of_lt_of_le (hcut.nonempty a ha) hle
  rw [position_of_tokenize h a ha, position_of_tokenize h b hb]
  exact Position.ofOffset_precedes (hcut.cut a ha).isBoundary (hcut.cut b hb).isBoundary hlt

/-- One walk over the text, from the start of each lexeme to the start of the next, finds the places
of them all. -/
theorem visit_lexemes {text : String} {lexemes : List Lexeme} (h : tokenize text = .ok lexemes) :
    lexemes.map Lexeme.position =
      Position.visit text.toList 0 Position.start (lexemes.map Lexeme.start) := by
  have hcut := decomposition_of_tokenize h
  have hstart : IsBoundary text.toList 0 := ⟨[], text.toList, rfl, rfl⟩
  have hall : ∀ j ∈ lexemes.map Lexeme.start, IsBoundary text.toList j := by
    intro j hj
    obtain ⟨l, hl, rfl⟩ := List.mem_map.1 hj
    exact (hcut.cut l hl).isBoundary
  have hordered : (lexemes.map Lexeme.start).Pairwise (· ≤ ·) := by
    refine List.pairwise_map.2 (hcut.ordered.imp_of_mem fun {a b} ha _ hle => ?_)
    exact Nat.le_trans (hcut.nonempty a ha).le hle
  have hvisit := Position.visit_eq hstart hall
    (List.pairwise_cons.2 ⟨fun j _ => Nat.zero_le j, hordered⟩)
  have hzero : Position.ofOffset text.toList 0 = Position.start :=
    Position.ofOffset_byteLength [] text.toList
  rw [hzero] at hvisit
  rw [hvisit, List.map_map]
  exact List.map_congr_left (position_of_tokenize h)

/-- The place of the end is the one that the length of the text has. -/
theorem position_atEnd (text : String) :
    (Lexeme.atEnd text).position = Position.ofOffset text.toList text.utf8ByteSize := by
  have hsize := utf8ByteSize_ofList text.toList
  have hall := Position.ofOffset_byteLength text.toList []
  rw [String.ofList_toList] at hsize
  rw [List.append_nil] at hall
  rw [hsize, hall]
  rfl

/-- Every lexeme of a text, and the end of the text, has the place that its offset has. The place of
an offset counts the line feeds in front of it and the characters behind the last of them; a walk
over two texts in turn is a walk over both of them joined; and a greater offset has a later place,
so that of two lexemes the one that comes later has the later place. A single walk that goes on from
the start of each lexeme to the start of the next finds the same places. -/
theorem positions_agree (text : String) :
    (∀ lexemes, tokenize text = .ok lexemes →
      (∀ l ∈ lexemes, IsBoundary text.toList l.start ∧
        l.position = Position.ofOffset text.toList l.start) ∧
      (lexemes.Pairwise fun a b => a.position.Precedes b.position) ∧
      lexemes.map Lexeme.position =
        Position.visit text.toList 0 Position.start (lexemes.map Lexeme.start)) ∧
    (Lexeme.atEnd text).position = Position.ofOffset text.toList text.utf8ByteSize ∧
    (∀ before after, text.toList = before ++ after →
      Position.ofOffset text.toList (byteLength before) =
        ⟨1 + before.count '\n', 1 + (before.rtakeWhile fun c => c ≠ '\n').length⟩) ∧
    (∀ (p : Position) (a b : List Char), p.advance (a ++ b) = (p.advance a).advance b) ∧
    ∀ i j, IsBoundary text.toList i → IsBoundary text.toList j → i < j →
      (Position.ofOffset text.toList i).Precedes (Position.ofOffset text.toList j) := by
  refine ⟨fun lexemes h => ⟨fun l hl => ?_, positions_increase h, visit_lexemes h⟩,
    position_atEnd text,
    fun before after htext => ?_, Position.advance_append,
    fun i j hi hj hlt => Position.ofOffset_precedes hi hj hlt⟩
  · exact ⟨((decomposition_of_tokenize h).cut l hl).isBoundary, position_of_tokenize h l hl⟩
  · rw [htext, Position.ofOffset_byteLength, Position.advance_start]

/-- The second name stands in the second line, behind a blank. -/
theorem positions_agree_lines :
    let lexemes : List Lexeme := [⟨.name "x", "x", 0, 1, ⟨1, 1⟩⟩, ⟨.name "y", "y", 3, 4, ⟨2, 2⟩⟩]
    tokenize "x\n y" = .ok lexemes ∧
      (∀ l ∈ lexemes, IsBoundary "x\n y".toList l.start ∧
        l.position = Position.ofOffset "x\n y".toList l.start) ∧
      lexemes.map Lexeme.position =
        Position.visit "x\n y".toList 0 Position.start (lexemes.map Lexeme.start) ∧
      (Position.ofOffset "x\n y".toList 0).Precedes (Position.ofOffset "x\n y".toList 3) := by
  intro lexemes
  have htext : tokenize "x\n y" = .ok lexemes := by cbv
  obtain ⟨hlexemes, -, -, -, horder⟩ := positions_agree "x\n y"
  obtain ⟨hplaces, -, hvisit⟩ := hlexemes lexemes htext
  have hx := (hplaces ⟨.name "x", "x", 0, 1, ⟨1, 1⟩⟩ (by simp [lexemes])).1
  have hy := (hplaces ⟨.name "y", "y", 3, 4, ⟨2, 2⟩⟩ (by simp [lexemes])).1
  exact ⟨htext, hplaces, hvisit, horder 0 3 hx hy (by decide)⟩

end UnitCalc
