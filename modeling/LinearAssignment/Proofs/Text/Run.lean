import LinearAssignment.Text.Blank
import Mathlib.Data.List.Basic
import Mathlib.Data.List.TakeWhile

/-!
Runs of characters: where a run of one kind comes first and the text behind it does not go on with
it, the run is what is taken.
-/

namespace LinearAssignment.Text

/-- A text that does not begin with a character of some kind. -/
def Stops (p : Char → Bool) (cs : List Char) : Prop := cs.head?.all (!p ·) = true

variable {p : Char → Bool} {c : Char} {cs rest : List Char}

@[simp] theorem stops_nil : Stops p [] := rfl

@[simp] theorem stops_cons : Stops p (c :: cs) ↔ p c = false := by simp [Stops]

theorem takeWhile_of_stops (h : Stops p rest) : rest.takeWhile p = [] := by
  cases rest with
  | nil => rfl
  | cons c rest => rw [List.takeWhile_cons, stops_cons.mp h, if_neg (by decide)]

theorem dropWhile_of_stops (h : Stops p rest) : rest.dropWhile p = rest := by
  cases rest with
  | nil => rfl
  | cons c rest => rw [List.dropWhile_cons, stops_cons.mp h, if_neg (by decide)]

theorem takeWhile_run (h : ∀ c ∈ cs, p c = true) (hr : Stops p rest) :
    (cs ++ rest).takeWhile p = cs := by
  rw [List.takeWhile_append_of_pos h, takeWhile_of_stops hr, List.append_nil]

theorem dropWhile_run (h : ∀ c ∈ cs, p c = true) (hr : Stops p rest) :
    (cs ++ rest).dropWhile p = rest := by
  rw [List.dropWhile_append_of_pos h, dropWhile_of_stops hr]

/-- What follows a run does not go on with it. -/
theorem dropWhile_cases (p : Char → Bool) (cs : List Char) :
    cs.dropWhile p = [] ∨ ∃ c ds, cs.dropWhile p = c :: ds ∧ p c = false := by
  cases h : cs.dropWhile p with
  | nil => exact .inl rfl
  | cons c ds =>
    have hhead := List.head_dropWhile_not p (h ▸ List.cons_ne_nil c ds)
    simp only [h, List.head_cons] at hhead
    exact .inr ⟨c, ds, rfl, hhead⟩

end LinearAssignment.Text
