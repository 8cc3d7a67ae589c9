import LinearAssignment.Proofs.Grid.Reduce

/-!
The reduced form of a grid: the least entry of every line is a zero. An admitted grid is brought
into this form by its reduction, and a further reduction leaves all values as they are.
-/

namespace LinearAssignment

open Cost

namespace Grid

variable {α : Type} {n : ℕ} [Cost α]

/-- The least entry of every row and of every column is a zero. -/
structure Reduced (g : Grid α n) : Prop where
  rows (r : Fin n) : ∃ m, least? (g.row r) = some m ∧ (m == 0) = true
  cols (c : Fin n) : ∃ m, least? (g.col c) = some m ∧ (m == 0) = true

/-- Every row and every column holds a zero, and no entry is negative. -/
structure Zeroed (g : Grid α n) : Prop where
  nonneg (r c : Fin n) : Nonneg (g r c)
  row (r : Fin n) : ∃ c, (g r c == 0) = true
  col (c : Fin n) : ∃ r, (g r c == 0) = true

variable [Lawful α] {g w : Grid α n}

theorem exists_least?_zero {f : Fin n → α} (hf : ∀ i, Nonneg (f i)) {i : Fin n}
    (hi : (f i == 0) = true) :
    ∃ j, least? ((List.finRange n).map f) = some (f j) ∧ Lawful.value (f j) = 0 := by
  obtain ⟨j, hlo, hle⟩ := exists_least?_line (fun i ↦ (hf i).1) i
  have hzero := (beq_zero_iff (hf i).1).mp hi
  exact ⟨j, hlo, ((hle i).trans_eq hzero).antisymm (nonneg_iff.mp (hf j)).2⟩

namespace Zeroed

theorem reduced (h : g.Zeroed) : g.Reduced where
  rows r := by
    obtain ⟨c, hc⟩ := h.row r
    obtain ⟨d, hlo, hd⟩ := exists_least?_zero (h.nonneg r) hc
    exact ⟨g r d, hlo, (beq_zero_iff (h.nonneg r d).1).mpr hd⟩
  cols c := by
    obtain ⟨r, hr⟩ := h.col c
    obtain ⟨i, hlo, hi⟩ := exists_least?_zero (fun r ↦ h.nonneg r c) hr
    exact ⟨g i c, hlo, (beq_zero_iff (h.nonneg i c).1).mpr hi⟩

/-- A grid with the same values has its zeros in the same places. -/
theorem congr (h : g.Zeroed)
    (hw : ∀ r c, Nonneg (w r c) ∧ Lawful.value (w r c) = Lawful.value (g r c)) : w.Zeroed := by
  have hzero (r c : Fin n) (hz : (g r c == 0) = true) : (w r c == 0) = true := by
    rw [beq_zero_iff (hw r c).1.1, (hw r c).2]
    exact (beq_zero_iff (h.nonneg r c).1).mp hz
  exact ⟨fun r c ↦ (hw r c).1, fun r ↦ (h.row r).imp (hzero r), fun c ↦ (h.col c).imp (hzero · c)⟩

variable [Neutral α]

theorem sub_of_zero {a b : α} (ha : Nonneg a) (hb : Nonneg b) (h : Lawful.value b = 0) :
    Nonneg (a - b) ∧ Lawful.value (a - b) = Lawful.value a := by
  have hfinite := Lawful.isFinite_of_le hb.1 Lawful.isFinite_zero (nonneg_iff.mp hb).2
    (h.trans Lawful.value_zero.symm).le
  exact ⟨nonneg_sub ha.1 hfinite (h.trans_le (nonneg_iff.mp ha).2), Neutral.value_sub ha.1 hb.1 h⟩

variable (h : g.Zeroed)
include h

theorem reduceRows (r c : Fin n) : Nonneg (g.reduceRows r c) ∧
    Lawful.value (g.reduceRows r c) = Lawful.value (g r c) := by
  obtain ⟨d, hd⟩ := h.row r
  obtain ⟨j, hlo, hj⟩ := exists_least?_zero (h.nonneg r) hd
  rw [reduceRows_value, Grid.row, hlo]
  exact sub_of_zero (h.nonneg r c) (h.nonneg r j) hj

theorem reduceCols (r c : Fin n) : Nonneg (g.reduceCols r c) ∧
    Lawful.value (g.reduceCols r c) = Lawful.value (g r c) := by
  obtain ⟨i, hi⟩ := h.col c
  obtain ⟨j, hlo, hj⟩ := exists_least?_zero (fun r ↦ h.nonneg r c) hi
  rw [reduceCols_value, Grid.col, hlo]
  exact sub_of_zero (h.nonneg r c) (h.nonneg j c) hj

theorem reduce (r c : Fin n) : Nonneg (g.reduce r c) ∧
    Lawful.value (g.reduce r c) = Lawful.value (g r c) := by
  obtain ⟨hn, hv⟩ := (h.congr h.reduceRows).reduceCols r c
  exact ⟨hn, hv.trans (h.reduceRows r c).2⟩

theorem reduce_beq (r c : Fin n) : (g.reduce r c == g r c) = true := by
  obtain ⟨hn, hv⟩ := h.reduce r c
  exact (Lawful.beq_iff hn.1 (h.nonneg r c).1).mpr hv

end Zeroed

/-- The columns lose nothing where the rows have got a zero. -/
theorem Admitted.zeroed (h : g.Admitted) : g.reduce.Zeroed where
  nonneg r c := (h.reduce r c).1
  row r := by
    obtain ⟨d, hlo, -⟩ := exists_least?_line (h.isNumber r) r
    have hrows : Lawful.value (g.reduceRows r d) = 0 := by
      rw [reduceRows_value, Grid.row, hlo]
      exact Lawful.value_sub_self (h.finite r d)
    obtain ⟨i, hcol, -⟩ := exists_least?_line (fun i ↦ (h.reduceRows i d).1.1) r
    obtain ⟨hn, hnonneg⟩ := nonneg_iff.mp (h.reduce r d).1
    have hle : Lawful.value (g.reduce r d) ≤ Lawful.value (g.reduceRows r d) := by
      rw [Grid.reduce, reduceCols_value, Grid.col, hcol]
      exact Lawful.value_sub_le (h.reduceRows r d).1.1 (h.reduceRows i d).2
        (nonneg_iff.mp (h.reduceRows i d).1).2
    exact ⟨d, (beq_zero_iff hn).mpr ((hle.trans_eq hrows).antisymm hnonneg)⟩
  col c := by
    obtain ⟨i, hcol, -⟩ := exists_least?_line (fun i ↦ (h.reduceRows i c).1.1) c
    refine ⟨i, (beq_zero_iff (h.reduce i c).1.1).mpr ?_⟩
    rw [Grid.reduce, reduceCols_value, Grid.col, hcol]
    exact Lawful.value_sub_self (h.reduceRows i c).2

end Grid

end LinearAssignment
