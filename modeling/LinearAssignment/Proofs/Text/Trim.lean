import LinearAssignment.Text.Blank
import Mathlib.Data.List.DropRight

/-!
Trimming at the end of a text.
-/

namespace LinearAssignment.Text

variable {c : Char} {cs : List Char}

theorem trimRight_eq (cs : List Char) : trimRight cs = cs.rdropWhile isBlank := rfl

theorem trimRight_eq_self_iff : trimRight cs = cs ↔ cs.getLast?.any isBlank = false := by
  rw [trimRight_eq, List.rdropWhile_eq_self_iff]
  rcases cs.eq_nil_or_concat with rfl | ⟨ds, c, rfl⟩ <;> simp

theorem trimRight_ne_nil (hc : cs.getLast?.any isBlank = false) (hne : cs ≠ []) :
    trimRight cs ≠ [] := by
  rwa [trimRight_eq_self_iff.mpr hc]

/-- What is left begins as the text does, if that is no white space. -/
theorem exists_trimRight_cons (hc : isBlank c = false) (cs : List Char) :
    ∃ ds, trimRight (c :: cs) = c :: ds := by
  have hne : trimRight (c :: cs) ≠ [] := by
    rw [trimRight_eq, Ne, List.rdropWhile_eq_nil_iff]
    intro hall
    exact absurd (hall c List.mem_cons_self) (by simp [hc])
  obtain ⟨d, ds, hds⟩ := List.exists_cons_of_ne_nil hne
  have hprefix : trimRight (c :: cs) <+: c :: cs := List.rdropWhile_prefix _ _
  rw [hds, List.cons_prefix_cons] at hprefix
  exact ⟨ds, hprefix.1 ▸ hds⟩

theorem isTrimmed_iff : isTrimmed cs = true ↔
    cs.head?.any isBlank = false ∧ cs.getLast?.any isBlank = false := by
  simp [isTrimmed]

end LinearAssignment.Text
