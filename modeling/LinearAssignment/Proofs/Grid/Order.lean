import LinearAssignment.Grid
import Mathlib.Data.List.FinRange
import Mathlib.Data.Prod.Lex

/-!
Scans of ordered lists: the first hit is the least. The cells of a grid are ordered row by row, and
from left to right in each row.
-/

namespace LinearAssignment

variable {α β : Type}

section Pairwise

variable {r : α → α → Prop} {xs before after : List α} {a x : α}

theorem mem_of_pairwise_append (hxs : (before ++ a :: after).Pairwise r)
    (hr : ∀ x y, r x y → ¬r y x) (hx : x ∈ before ++ a :: after) (hxa : r x a) : x ∈ before := by
  obtain ⟨-, hafter, -⟩ := List.pairwise_append.mp hxs
  rcases List.mem_append.mp hx with hx | hx
  · exact hx
  · rcases List.mem_cons.mp hx with rfl | hx
    · exact absurd hxa (hr x x hxa)
    · exact absurd hxa (hr a x ((List.pairwise_cons.mp hafter).1 x hx))

theorem findSome?_eq_some_iff_of_pairwise (hxs : xs.Pairwise r) (hr : ∀ x y, r x y → ¬r y x)
    {f : α → Option β} {b : β} :
    xs.findSome? f = some b ↔ ∃ a ∈ xs, f a = some b ∧ ∀ x ∈ xs, r x a → f x = none := by
  rw [List.findSome?_eq_some_iff]
  constructor
  · rintro ⟨before, a, after, rfl, ha, hbefore⟩
    refine ⟨a, by simp, ha, ?_⟩
    intro x hx hxa
    exact hbefore x (mem_of_pairwise_append hxs hr hx hxa)
  · rintro ⟨a, ha, hfa, hbefore⟩
    obtain ⟨before, after, rfl⟩ := List.append_of_mem ha
    refine ⟨before, a, after, rfl, hfa, ?_⟩
    intro x hx
    obtain ⟨-, -, hle⟩ := List.pairwise_append.mp hxs
    exact hbefore x (List.mem_append_left _ hx) (hle x hx a List.mem_cons_self)

theorem find?_eq_some_iff_of_pairwise (hxs : xs.Pairwise r) (hr : ∀ x y, r x y → ¬r y x)
    {p : α → Bool} :
    xs.find? p = some a ↔ a ∈ xs ∧ p a = true ∧ ∀ x ∈ xs, r x a → p x = false := by
  rw [List.find?_eq_findSome?_guard, findSome?_eq_some_iff_of_pairwise hxs hr]
  simp [Option.guard_eq_some_iff]

end Pairwise

theorem findSome?_finRange_eq_some_iff {n : ℕ} {f : Fin n → Option β} {b : β} :
    (List.finRange n).findSome? f = some b ↔ ∃ i, f i = some b ∧ ∀ j < i, f j = none := by
  rw [findSome?_eq_some_iff_of_pairwise (List.pairwise_lt_finRange n) fun _ _ h ↦ h.asymm]
  simp

theorem zipIdx_eq_map_finRange (xs : List α) :
    xs.zipIdx = (List.finRange xs.length).map fun i ↦ (xs.get i, i.val) := by
  apply List.ext_getElem <;> simp

theorem pairwise_lt_cells (n : ℕ) : (cells n).Pairwise fun p q ↦ toLex p < toLex q := by
  rw [cells, List.pairwise_flatMap]
  constructor
  · intro r _
    rw [List.pairwise_map]
    refine (List.pairwise_lt_finRange n).imp ?_
    intro c d h
    exact Prod.Lex.toLex_lt_toLex.mpr (.inr ⟨rfl, h⟩)
  · refine (List.pairwise_lt_finRange n).imp ?_
    intro r s h p hp q hq
    obtain ⟨c, -, rfl⟩ := List.mem_map.mp hp
    obtain ⟨d, -, rfl⟩ := List.mem_map.mp hq
    exact Prod.Lex.toLex_lt_toLex.mpr (.inl h)

end LinearAssignment
