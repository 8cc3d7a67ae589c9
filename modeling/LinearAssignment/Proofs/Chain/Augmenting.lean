import LinearAssignment.Proofs.Chain.Route
import LinearAssignment.Proofs.Matching.Size

/-!
Chains from an unmatched row along a route. They fit the matching, and their flip matches the row.
If the route ends in an unmatched column, the chain is augmenting and its flip adds one pair; if it
gets stuck, the row in which it does loses its pair.
-/

namespace LinearAssignment.Chain

variable {n : ℕ} {m : Matching n} {marks : Vector (Option ℕ) n} {r c e : Fin n} {rest : Chain}
  {o : Option (Fin n)}

namespace Route

/-- What enters with the chain is the cell it begins with, or the mark of a row that leaves. -/
theorem enter_cases (h : Route m marks c rest o) {i j : ℕ}
    (he : Link.enter i j ∈ Link.enter r c :: rest) :
    i = r ∧ j = c ∨ Link.enter i j ∈ rest ∧ ∃ i' j' b : Fin n, i = i' ∧ j = j' ∧
      marks.get i' = some j'.val ∧ m.rowOf.get b = some i'.val ∧ Link.leave i' b ∈ rest := by
  rcases List.mem_cons.mp he with he | he
  · cases he
    exact .inl ⟨rfl, rfl⟩
  · obtain ⟨i', j', b, hi, hj, hm, hb, hl, -⟩ := h.of_enter he
    exact .inr ⟨he, i', j', b, hi, hj, hm, hb, hl⟩

theorem exists_later (h : Route m marks c rest o) {i j : ℕ}
    (he : Link.enter i j ∈ Link.enter r c :: rest) :
    ∃ d : Fin n, j = d ∧ ∃ later, Route m marks d later o ∧ ∀ l ∈ later, l ∈ rest := by
  rcases List.mem_cons.mp he with he | he
  · cases he
    exact ⟨c, rfl, rest, h, fun _ ↦ id⟩
  · obtain ⟨-, d, -, -, hj, -, -, -, later, hlater, -, hsub⟩ := h.of_enter he
    exact ⟨d, hj, later, hlater, hsub⟩

end Route

theorem rowOf_ne (hm : m.Consistent) (hr : m.colOf.get r = none) (b : Fin n) :
    m.rowOf.get b ≠ some r.val := fun hb ↦ by
  have hb := (hm.agree r b).mpr hb
  rw [hr] at hb
  cases hb

namespace Route

variable (h : Route m marks c rest o) (hm : m.Consistent) (hr : m.colOf.get r = none)
include h hm hr

theorem fits : Chain.Fits m (.enter r c :: rest) where
  lt i j he := by
    rcases h.enter_cases he with ⟨rfl, rfl⟩ | ⟨-, i', j', -, rfl, rfl, -⟩ <;>
      exact ⟨Fin.isLt _, Fin.isLt _⟩
  col_unique i j j' he he' := by
    rcases h.enter_cases he with ⟨rfl, rfl⟩ | ⟨-, k, d, b, rfl, rfl, hk, hb, -⟩ <;>
      rcases h.enter_cases he' with ⟨hi, rfl⟩ | ⟨-, k', d', b', hi, rfl, hk', hb', -⟩
    · rfl
    · exact absurd (hi ▸ hb') (rowOf_ne hm hr b')
    · exact absurd (hi ▸ hb) (rowOf_ne hm hr b)
    · rw [Fin.ext hi] at hk
      exact Option.some.inj (hk.symm.trans hk')
  row_unique i i' j he he' := by
    rcases List.mem_cons.mp he with he | he <;> rcases List.mem_cons.mp he' with he' | he'
    · cases he
      cases he'
      rfl
    · cases he
      exact absurd he' (h.not_mem_enter _)
    · cases he'
      exact absurd he (h.not_mem_enter _)
    · exact h.row_unique he he'
  col_leaves i j j' he hj := by
    rcases h.enter_cases he with ⟨hi, -⟩ | ⟨-, k, -, b, hi, -, -, hb, hl⟩
    · rw [Fin.ext hi, hr] at hj
      cases hj
    · rw [Fin.ext hi, (hm.agree k b).mpr hb] at hj
      cases hj
      exact List.mem_cons_of_mem _ (Fin.ext hi ▸ hl)
  row_leaves i i' j he hi := by
    obtain ⟨d, hj, later, hlater, hsub⟩ := h.exists_later he
    obtain rfl := Fin.ext hj
    exact List.mem_cons_of_mem _ (hsub _ (hlater.leave_mem hi))

/-- What was matched still is. An unmatched column in which the route ends is matched, too. -/
theorem rowOf_flip_isSome (d : Fin n) :
    ((m.flip (.enter r c :: rest)).rowOf.get d).isSome = true ↔
      o = some d ∨ (m.rowOf.get d).isSome = true := by
  simp only [Option.isSome_iff_exists, Matching.rowOf_flip (h.fits hm hr)]
  constructor
  · rintro ⟨i, hi | ⟨hi, -⟩⟩
    · obtain ⟨d', hd, later, hlater, -⟩ := h.exists_later hi
      obtain rfl := Fin.ext hd
      exact hlater.eq_or_isSome.imp_right Option.isSome_iff_exists.mp
    · exact .inr ⟨i, hi⟩
  · rintro (rfl | ⟨i, hi⟩)
    · obtain ⟨k, hk⟩ := h.enter_end r
      exact ⟨k, .inl hk⟩
    · by_cases hl : Link.leave i d ∈ Link.enter r c :: rest
      · obtain ⟨k, hk⟩ := h.enter_of_leave_col (by simpa using hl) r
        exact ⟨k, .inl hk⟩
      · exact ⟨i, .inr ⟨hi, hl⟩⟩

/-- The row of the first cell is matched, and a row that was matched still is unless its pair leaves
and it has no mark. -/
theorem colOf_flip_isSome (i : Fin n) :
    ((m.flip (.enter r c :: rest)).colOf.get i).isSome = true ↔ i = r ∨
      (m.colOf.get i).isSome = true ∧ ∀ j, Link.leave i j ∈ rest → (marks.get i).isSome = true := by
  simp only [Option.isSome_iff_exists, Matching.colOf_flip (h.fits hm hr)]
  constructor
  · rintro ⟨j, hj | ⟨hj, hl⟩⟩
    · rcases h.enter_cases hj with ⟨hi, -⟩ | ⟨-, k, d, b, hi, -, hk, hb, -⟩
      · exact .inl (Fin.ext hi)
      · obtain rfl := Fin.ext hi
        exact .inr ⟨⟨b, (hm.agree i b).mpr hb⟩, fun _ _ ↦ ⟨d, hk⟩⟩
    · refine .inr ⟨⟨j, hj⟩, ?_⟩
      intro j' hl'
      obtain ⟨i', d, hi, rfl, hd, -⟩ := h.of_leave hl'
      rw [← Fin.ext hi, ← hm.agree, hj] at hd
      cases hd
      exact absurd (List.mem_cons_of_mem _ hl') hl
  · rintro (rfl | ⟨⟨j, hj⟩, hmark⟩)
    · exact ⟨c, .inl List.mem_cons_self⟩
    · by_cases hl : Link.leave i j ∈ Link.enter r c :: rest
      · have hl : Link.leave i j ∈ rest := by simpa using hl
        obtain ⟨k, hk⟩ := hmark j hl
        obtain ⟨i', -, hi, -, -, ⟨d, -, hd⟩ | ⟨hnone, -⟩⟩ := h.of_leave hl
        · exact ⟨d, .inl (List.mem_cons_of_mem _ (hi ▸ hd))⟩
        · rw [← Fin.ext hi, hk] at hnone
          cases hnone
      · exact ⟨j, .inr ⟨hj, hl⟩⟩

end Route

/-- A chain from an unmatched row along the route from a column. -/
structure Augmenting (m : Matching n) (marks : Vector (Option ℕ) n) (r c e : Fin n)
    (rest : Chain) : Prop where
  free : m.colOf.get r = none
  route : Route m marks c rest (some e)

namespace Augmenting

theorem startingAt_eq (h : Augmenting m marks r c e rest) (hlen : rest.length ≤ 2 * n) :
    startingAt m marks r c = .ok (.enter r c :: rest) := by
  rw [startingAt, h.route.beyond_eq (by omega)]
  rfl

variable (h : Augmenting m marks r c e rest) (hm : m.Consistent)
include h hm

theorem fits : Chain.Fits m (.enter r c :: rest) := h.route.fits hm h.free

theorem rowOf_flip_isSome (d : Fin n) :
    ((m.flip (.enter r c :: rest)).rowOf.get d).isSome = true ↔
      d = e ∨ (m.rowOf.get d).isSome = true := by
  rw [h.route.rowOf_flip_isSome hm h.free, Option.some_inj, eq_comm]

theorem colOf_flip_isSome (i : Fin n) :
    ((m.flip (.enter r c :: rest)).colOf.get i).isSome = true ↔
      i = r ∨ (m.colOf.get i).isSome = true := by
  rw [h.route.colOf_flip_isSome hm h.free, and_iff_left]
  intro j hl
  obtain ⟨i', -, hi, -, -, ⟨k, hk, -⟩ | ⟨-, ho⟩⟩ := h.route.of_leave hl
  · rw [Fin.ext hi, hk]
    rfl
  · cases ho

/-- A pair of the flipped matching is the first cell, a marked cell, or was matched before. -/
theorem of_colOf_flip {i j : Fin n}
    (hj : (m.flip (.enter r c :: rest)).colOf.get i = some j.val) :
    i = r ∧ j = c ∨ marks.get i = some j.val ∨ m.colOf.get i = some j.val := by
  rcases (Matching.colOf_flip (h.fits hm) i j).mp hj with he | ⟨hj, -⟩
  · rcases h.route.enter_cases he with ⟨hi, hj⟩ | ⟨-, k, d, -, hi, hj, hk, -⟩
    · exact .inl ⟨Fin.ext hi, Fin.ext hj⟩
    · obtain rfl := Fin.ext hi
      obtain rfl := Fin.ext hj
      exact .inr (.inl hk)
  · exact .inr (.inr hj)

theorem size_flip : (m.flip (.enter r c :: rest)).size = m.size + 1 := by
  have hcols : (m.flip (.enter r c :: rest)).matchedCols = insert e m.matchedCols := by
    ext d
    simp [h.rowOf_flip_isSome hm]
  rw [← Matching.card_matchedCols, hcols, Finset.card_insert_of_notMem (by simp [h.route.end_free]),
    Matching.card_matchedCols]

end Augmenting

end LinearAssignment.Chain
