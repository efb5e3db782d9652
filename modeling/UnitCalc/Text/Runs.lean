import Mathlib

/-!
# Runs of characters

The characters of a class at the start of a text are a run. A run ends at the first character
outside the class, so what stands behind that character does not matter (`takeWhile_break`), and a
run with such a character behind it is found as a whole (`takeWhile_run`).
-/

namespace UnitCalc

section Runs

variable {p : Char → Bool} {c : Char} {run : List Char} (text rest : List Char)

/-- A run that is broken off does not depend on what stands behind the break. -/
theorem takeWhile_break (hp : p c = false) :
    (text ++ c :: rest).takeWhile p = text.takeWhile p := by
  induction text with
  | nil => simp [hp]
  | cons a text ih =>
    rw [List.cons_append, List.takeWhile_cons, List.takeWhile_cons, ih]

/-- What is left behind a run goes on to the break and past it. -/
theorem dropWhile_break (hp : p c = false) :
    (text ++ c :: rest).dropWhile p = text.dropWhile p ++ c :: rest := by
  induction text with
  | nil => simp [hp]
  | cons a text ih =>
    rw [List.cons_append, List.dropWhile_cons, List.dropWhile_cons, ih]
    split
    · rfl
    · rfl

variable {text rest}

/-- A run is taken as a whole if what follows it does not belong to the class. -/
theorem takeWhile_run (hrun : ∀ c ∈ run, p c = true) (hrest : ∀ c ∈ rest.head?, p c = false) :
    (run ++ rest).takeWhile p = run := by
  rw [List.takeWhile_append_of_pos hrun]
  cases rest with
  | nil => simp
  | cons c rest => simp [hrest c rfl]

/-- Nothing but the run is dropped if what follows it does not belong to the class. -/
theorem dropWhile_run (hrun : ∀ c ∈ run, p c = true) (hrest : ∀ c ∈ rest.head?, p c = false) :
    (run ++ rest).dropWhile p = rest := by
  rw [List.dropWhile_append_of_pos hrun]
  cases rest with
  | nil => rfl
  | cons c rest => simp [hrest c rfl]

/-- A start of a text that belongs to the class is part of the run. -/
theorem prefix_takeWhile (hrun : ∀ c ∈ run, p c = true) (h : run <+: text) :
    run <+: text.takeWhile p := by
  obtain ⟨rest, rfl⟩ := h
  rw [List.takeWhile_append_of_pos hrun]
  exact List.prefix_append ..

end Runs

end UnitCalc
