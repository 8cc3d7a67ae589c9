import LinearAssignment.Proofs.Tableau.Sound
import LinearAssignment.Search

/-!
Adjustments keep the invariant. Where the search is not over, an adjustment that is needed makes an
uncovered zero, and so a settled tableau has one.
-/

namespace LinearAssignment.Tableau

open Cost Lawful

variable {α : Type} {n : ℕ} [Cost α] {t : Tableau α n} {m : α}

@[simp] theorem costs_adjust (t : Tableau α n) : t.adjust.costs = t.costs := by
  unfold adjust
  split <;> rfl

@[simp] theorem matching_adjust (t : Tableau α n) : t.adjust.matching = t.matching := by
  unfold adjust
  split <;> rfl

@[simp] theorem cover_adjust (t : Tableau α n) : t.adjust.cover = t.cover := by
  unfold adjust
  split <;> rfl

@[simp] theorem marks_adjust (t : Tableau α n) : t.adjust.marks = t.marks := by
  unfold adjust
  split <;> rfl

@[simp] theorem chain_adjust (t : Tableau α n) : t.adjust.chain = t.chain := by
  unfold adjust
  split <;> rfl

theorem settle_of_zero? {p : Cell n} (h : t.zero? = some p) :
    t.settle = t ∧ t.settleEvents = [] := by
  simp [settle, settleEvents, h]

theorem settle_of_zero?_eq_none (h : t.zero? = none) :
    t.settle = t.adjust ∧ t.settleEvents = t.adjustEvents := by
  simp [settle, settleEvents, h]

theorem settle_eq (t : Tableau α n) : t.settle = t ∨ t.settle = t.adjust := by
  cases hz : t.zero? with
  | some p => exact .inl (settle_of_zero? hz).1
  | none => exact .inr (settle_of_zero?_eq_none hz).1

@[simp] theorem costs_settle (t : Tableau α n) : t.settle.costs = t.costs := by
  rcases t.settle_eq with e | e <;> simp [e]

@[simp] theorem matching_settle (t : Tableau α n) : t.settle.matching = t.matching := by
  rcases t.settle_eq with e | e <;> simp [e]

@[simp] theorem cover_settle (t : Tableau α n) : t.settle.cover = t.cover := by
  rcases t.settle_eq with e | e <;> simp [e]

variable [Lawful α]

/-- What is taken from the uncovered cells and given to the doubly covered ones: a finite amount
that is not negative and that no uncovered cell falls short of. -/
structure Amount (t : Tableau α n) (m : α) : Prop where
  isFinite : isFinite m = true
  nonneg : 0 ≤ value m
  le (r c : Fin n) (hr : t.cover.rows.get r = false) (hc : t.cover.cols.get c = false) :
    value m ≤ value (t.grid r c)

theorem Amount.nonneg_shift (hm : t.Amount m) (hg : ∀ r c, Nonneg (t.grid r c)) (r c : Fin n) :
    Nonneg (t.grid.shift t.cover m r c) := by
  cases hr : t.cover.rows.get r <;> cases hc : t.cover.cols.get c
  · rw [Grid.shift_of_uncovered hr hc]
    exact nonneg_sub (hg r c).1 hm.isFinite (hm.le r c hr hc)
  · rw [Grid.shift_of_crossing (by rw [hr, hc]; rfl)]
    exact hg r c
  · rw [Grid.shift_of_crossing (by rw [hr, hc]; rfl)]
    exact hg r c
  · rw [Grid.shift_of_covered hr hc]
    exact nonneg_add (hg r c) (nonneg_iff.mpr ⟨isNumber_of_isFinite hm.isFinite, hm.nonneg⟩)

/-- The amount of an adjustment is the entry of an uncovered cell. -/
theorem amount_of_adjustment? (hn : ∀ r c, isNumber (t.grid r c) = true)
    (hm : t.adjustment? = some m) : t.Amount m ∧ 0 < value m ∧
      ∃ r c, t.cover.rows.get r = false ∧ t.cover.cols.get c = false ∧ t.grid r c = m := by
  rw [adjustment?, Option.filter_eq_some_iff, Bool.and_eq_true, decide_eq_true_eq] at hm
  obtain ⟨hleast, hpos, hfinite⟩ := hm
  have hmem : ∃ p, t.cover.uncovers p = true := by
    by_contra! hnone
    have hempty : t.leastUncovered? = none :=
      Grid.leastUncovered?_eq_none fun p ↦ Bool.eq_false_of_not_eq_true (hnone p)
    cases hempty.symm.trans hleast
  obtain ⟨p, hp⟩ := hmem
  obtain ⟨hr, hc⟩ := Cover.uncovers_eq_true.mp hp
  obtain ⟨m', he, hcell, hle⟩ := Grid.leastUncovered?_eq_some hn hr hc
  obtain rfl : m' = m := Option.some.inj (he.symm.trans hleast)
  have hpos := (zero_lt_iff (isNumber_of_isFinite hfinite)).mp hpos
  exact ⟨⟨hfinite, hpos.le, hle⟩, hpos, hcell⟩

theorem nonneg_adjust (hg : ∀ r c, Nonneg (t.grid r c)) (r c : Fin n) :
    Nonneg (t.adjust.grid r c) := by
  cases hm : t.adjustment? with
  | none =>
    rw [adjust_of_none hm]
    exact hg r c
  | some m =>
    rw [adjust_of_some hm]
    exact (amount_of_adjustment? (fun r c ↦ (hg r c).1) hm).1.nonneg_shift hg r c

/-- Where a cell with a finite entry is uncovered, and no uncovered cell holds a zero, there is an
amount to adjust by. -/
theorem exists_adjustment (hg : ∀ r c, Nonneg (t.grid r c)) {r c : Fin n}
    (hr : t.cover.rows.get r = false) (hc : t.cover.cols.get c = false)
    (hfinite : isFinite (t.grid r c) = true) (hz : t.zero? = none) :
    ∃ m, t.adjustment? = some m := by
  obtain ⟨m, hm, ⟨i, j, hi, hj, rfl⟩, hle⟩ :=
    Grid.leastUncovered?_eq_some (fun r c ↦ (hg r c).1) hr hc
  obtain ⟨hn, hnonneg⟩ := nonneg_iff.mp (hg i j)
  have hpos : 0 < value (t.grid i j) := by
    refine hnonneg.lt_of_ne fun hzero ↦ ?_
    have hne := Grid.zero?_eq_none.mp hz i j hi hj
    rw [(beq_zero_iff hn).mpr hzero.symm] at hne
    cases hne
  have hmf := isFinite_of_le hn hfinite hnonneg (hle r c hr hc)
  exact ⟨t.grid i j, Option.filter_eq_some_iff.mpr ⟨hm, by
    rw [Bool.and_eq_true, decide_eq_true_eq]
    exact ⟨(zero_lt_iff hn).mpr hpos, hmf⟩⟩⟩

/-- The cell with the least uncovered entry becomes a zero. -/
theorem zero?_adjust_of_adjustment? (hn : ∀ r c, isNumber (t.grid r c) = true)
    (hm : t.adjustment? = some m) : ∃ p, t.adjust.zero? = some p := by
  obtain ⟨hamount, -, r, c, hr, hc, hcell⟩ := amount_of_adjustment? hn hm
  rw [← Option.ne_none_iff_exists']
  intro hnone
  rw [adjust_of_some hm] at hnone
  have hne := Grid.zero?_eq_none.mp hnone r c hr hc
  rw [Grid.shift_of_uncovered hr hc, hcell] at hne
  have hz := (beq_zero_iff (isNumber_sub (isNumber_of_isFinite hamount.isFinite)
    hamount.isFinite)).mpr (value_sub_self hamount.isFinite)
  rw [hz] at hne
  cases hne

namespace Sound

variable (h : t.Sound)
include h

theorem value_nonneg (r c : Fin n) : 0 ≤ value (t.grid r c) := (nonneg_iff.mp (h.nonneg r c)).2

theorem shift (hm : t.Amount m) :
    Sound { t with grid := t.grid.shift t.cover m } where
  consistent := h.consistent
  mark_lt := h.mark_lt
  nonneg := hm.nonneg_shift h.nonneg
  zero_of_matched r c hr := by
    dsimp only
    rw [Grid.shift_of_crossing (h.crossing r c hr)]
    exact h.zero_of_matched r c hr
  crossing := h.crossing
  row_uncovered := h.row_uncovered
  col_uncovered := h.col_uncovered
  marked_iff := h.marked_iff
  zero_of_marked r c hr := by
    obtain ⟨hz, hc⟩ := h.zero_of_marked r c hr
    have hrow := (h.marked_iff r).mp (by simp [show t.marks.get r = some c.val from hr])
    dsimp only
    rw [Grid.shift_of_crossing (by rw [hrow, hc]; rfl)]
    exact ⟨hz, hc⟩

theorem amount_of_adjustment? (hm : t.adjustment? = some m) : t.Amount m ∧ 0 < value m ∧
    ∃ r c, t.cover.rows.get r = false ∧ t.cover.cols.get c = false ∧ t.grid r c = m :=
  Tableau.amount_of_adjustment? h.isNumber hm

theorem adjust : t.adjust.Sound := by
  cases hm : t.adjustment? with
  | none => rwa [adjust_of_none hm]
  | some m =>
    rw [adjust_of_some hm]
    exact h.shift (h.amount_of_adjustment? hm).1

end Sound

namespace Ready

variable (h : t.Ready)
include h

theorem adjust : t.adjust.Ready where
  toSound := h.toSound.adjust
  route := by simpa using h.route
  finite r c hr hc := by
    rw [matching_adjust] at hr hc
    have hrow := h.row_uncovered r hr
    have hcol := h.col_uncovered c hc
    cases hm : t.adjustment? with
    | none =>
      rw [adjust_of_none hm]
      exact h.finite r c hr hc
    | some m =>
      rw [adjust_of_some hm]
      dsimp only
      rw [Grid.shift_of_uncovered hrow hcol]
      obtain ⟨hamount, -⟩ := h.amount_of_adjustment? hm
      exact isFinite_sub (h.finite r c hr hc) hamount.isFinite hamount.nonneg
        (hamount.le r c hrow hcol)

theorem settle : t.settle.Ready := by
  rcases t.settle_eq with e | e <;> rw [e]
  · exact h
  · exact h.adjust

theorem exists_adjustment (hcols : t.cover.allCols = false) (hz : t.zero? = none) :
    ∃ m, t.adjustment? = some m := by
  obtain ⟨r, c, hr, hc, hfinite⟩ := h.exists_finite hcols
  exact Tableau.exists_adjustment h.nonneg hr hc hfinite hz

theorem zero?_adjust (hcols : t.cover.allCols = false) (hz : t.zero? = none) :
    ∃ p, t.adjust.zero? = some p := by
  obtain ⟨m, hm⟩ := h.exists_adjustment hcols hz
  exact zero?_adjust_of_adjustment? h.isNumber hm

theorem zero?_settle (hcols : t.cover.allCols = false) : ∃ p, t.settle.zero? = some p := by
  cases hz : t.zero? with
  | some p => exact ⟨p, by rw [(settle_of_zero? hz).1, hz]⟩
  | none =>
    rw [(settle_of_zero?_eq_none hz).1]
    exact h.zero?_adjust hcols hz

end Ready

end LinearAssignment.Tableau
