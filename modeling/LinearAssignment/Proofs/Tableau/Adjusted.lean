import LinearAssignment.Proofs.Cost.Binary64
import LinearAssignment.Proofs.Cost.Exact
import LinearAssignment.Proofs.Tableau.Adjust

/-!
What an adjustment makes of any tableau with finite entries that are not negative, whatever lines
are covered.

The search for a zero, the least uncovered entry and the shift see the same cells. Rounding makes no
zero of the difference of two entries that differ.
-/

namespace LinearAssignment.Tableau

open Cost Lawful

variable {α : Type} {n : ℕ} [Cost α] {t : Tableau α n}

/-- The entries are finite and not negative, and no line covers some cell. -/
structure Adjustable (t : Tableau α n) : Prop where
  nonneg (r c : Fin n) : Nonneg (t.grid r c)
  finite (r c : Fin n) : isFinite (t.grid r c) = true
  uncovered : ∃ p, t.cover.uncovers p = true

structure Adjusted (t : Tableau α n) : Prop where
  nonneg (r c : Fin n) : Nonneg (t.adjust.grid r c)
  crossing (r c : Fin n) (h : t.cover.rows.get r = !t.cover.cols.get c) :
    t.adjust.grid r c = t.grid r c
  found : ∃ p, t.adjust.markZero = (some p, t.adjust.mark p) ∧ t.cover.uncovers p = true ∧
    (t.adjust.grid p.1 p.2 == 0) = true
  /-- The uncovered cells that become zeros are those that held the least uncovered entry. -/
  least : ∃ m, t.leastUncovered? = some m ∧
    (∃ p, t.cover.uncovers p = true ∧ t.grid p.1 p.2 = m) ∧
    ∀ p, t.cover.uncovers p = true → ¬t.grid p.1 p.2 < m ∧
      ((t.adjust.grid p.1 p.2 == 0) = true ↔ (t.grid p.1 p.2 == m) = true)
  settled : t.adjust.adjust = t.adjust ∧ t.adjust.adjustEvents = []
  unchanged (h : t.zero?.isSome = true) : t.adjust = t
  changed (h : t.zero? = none) : ∃ r c, (t.adjust.grid r c == t.grid r c) = false

variable [Lawful α]

theorem adjustment?_of_zero? (hn : ∀ r c, isNumber (t.grid r c) = true) {p : Cell n}
    (hp : t.zero? = some p) : t.adjustment? = none := by
  obtain ⟨hr, hc, hz⟩ := Grid.of_zero? hp
  rw [Option.eq_none_iff_forall_ne_some]
  intro m hm
  obtain ⟨hamount, hpos, -⟩ := amount_of_adjustment? hn hm
  exact hpos.not_ge ((hamount.le _ _ hr hc).trans ((beq_zero_iff (hn _ _)).mp hz).le)

theorem adjust_eq_self (hn : ∀ r c, isNumber (t.grid r c) = true) {p : Cell n}
    (hp : t.zero? = some p) : t.adjust = t ∧ t.adjustEvents = [] := by
  have hnone := adjustment?_of_zero? hn hp
  exact ⟨adjust_of_none hnone, by simp [adjustEvents, hnone]⟩

namespace Adjustable

variable (h : t.Adjustable)
include h

omit [Lawful α] in
theorem isNumber (r c : Fin n) : Cost.isNumber (t.grid r c) = true := (h.nonneg r c).1

theorem exists_amount (hz : t.zero? = none) : ∃ m, t.adjustment? = some m := by
  obtain ⟨p, hp⟩ := h.uncovered
  obtain ⟨hr, hc⟩ := Cover.uncovers_eq_true.mp hp
  exact exists_adjustment h.nonneg hr hc (h.finite _ _) hz

theorem exists_zero : ∃ p, t.adjust.zero? = some p := by
  cases hz : t.zero? with
  | some p => exact ⟨p, by rw [(adjust_eq_self h.isNumber hz).1, hz]⟩
  | none =>
    obtain ⟨m, hm⟩ := h.exists_amount hz
    exact zero?_adjust_of_adjustment? h.isNumber hm

theorem exists_least : ∃ m, t.leastUncovered? = some m ∧
    (∃ p, t.cover.uncovers p = true ∧ t.grid p.1 p.2 = m) ∧
    ∀ p, t.cover.uncovers p = true → value m ≤ value (t.grid p.1 p.2) := by
  obtain ⟨p, hp⟩ := h.uncovered
  exact Grid.exists_least_of_uncovers h.isNumber hp

/-- Either the least uncovered entry is a zero and stays one, or it is taken from all uncovered
cells. -/
theorem beq_zero_adjust_iff [Separating α] {m : α} (hm : t.leastUncovered? = some m)
    (hcell : ∃ p, t.cover.uncovers p = true ∧ t.grid p.1 p.2 = m)
    (hle : ∀ p, t.cover.uncovers p = true → value m ≤ value (t.grid p.1 p.2)) {p : Cell n}
    (hp : t.cover.uncovers p = true) :
    (t.adjust.grid p.1 p.2 == 0) = true ↔ (t.grid p.1 p.2 == m) = true := by
  obtain ⟨q, hq, rfl⟩ := hcell
  obtain ⟨hr, hc⟩ := Cover.uncovers_eq_true.mp hp
  cases hz : t.zero? with
  | some z =>
    obtain ⟨hzr, hzc, hz₀⟩ := Grid.of_zero? hz
    have hzle := hle z (Cover.uncovers_eq_true.mpr ⟨hzr, hzc⟩)
    have hzero : value (t.grid q.1 q.2) = 0 := le_antisymm
      (hzle.trans ((beq_zero_iff (h.isNumber _ _)).mp hz₀).le) (nonneg_iff.mp (h.nonneg _ _)).2
    rw [(adjust_eq_self h.isNumber hz).1, beq_zero_iff (h.isNumber _ _),
      beq_iff (h.isNumber _ _) (h.isNumber _ _), hzero]
  | none =>
    obtain ⟨m, hm'⟩ := h.exists_amount hz
    obtain rfl : t.grid q.1 q.2 = m :=
      Option.some.inj (hm.symm.trans (Option.filter_eq_some_iff.mp hm').1)
    rw [adjust_of_some hm']
    dsimp only
    rw [Grid.shift_of_uncovered hr hc]
    exact sub_beq_zero_iff (h.finite _ _) (h.finite _ _) (hle p hp)

theorem exists_changed (hz : t.zero? = none) :
    ∃ r c, (t.adjust.grid r c == t.grid r c) = false := by
  obtain ⟨m, hm⟩ := h.exists_amount hz
  obtain ⟨hamount, hpos, r, c, hr, hc, rfl⟩ := amount_of_adjustment? h.isNumber hm
  refine ⟨r, c, Bool.eq_false_iff.mpr fun heq ↦ hpos.ne ?_⟩
  rw [adjust_of_some hm] at heq
  dsimp only at heq
  rw [Grid.shift_of_uncovered hr hc] at heq
  have hvalue := (beq_iff (isNumber_sub (h.isNumber r c) hamount.isFinite) (h.isNumber r c)).mp heq
  exact (value_sub_self hamount.isFinite).symm.trans hvalue

theorem adjusted [Separating α] : t.Adjusted where
  nonneg := nonneg_adjust h.nonneg
  crossing r c hcross := by
    cases hm : t.adjustment? with
    | none => rw [adjust_of_none hm]
    | some m =>
      rw [adjust_of_some hm]
      exact Grid.shift_of_crossing hcross
  found := by
    obtain ⟨p, hp⟩ := h.exists_zero
    obtain ⟨hr, hc, hz⟩ := Grid.of_zero? hp
    rw [cover_adjust] at hr hc
    exact ⟨p, markZero_of_some hp, Cover.uncovers_eq_true.mpr ⟨hr, hc⟩, hz⟩
  least := by
    obtain ⟨m, hm, hcell, hle⟩ := h.exists_least
    obtain ⟨q, hq, hqm⟩ := hcell
    refine ⟨m, hm, ⟨q, hq, hqm⟩, fun p hp ↦ ⟨?_, h.beq_zero_adjust_iff hm ⟨q, hq, hqm⟩ hle hp⟩⟩
    rw [lt_iff (h.isNumber _ _) (hqm ▸ h.isNumber _ _)]
    exact (hle p hp).not_gt
  settled := by
    obtain ⟨p, hp⟩ := h.exists_zero
    exact adjust_eq_self (fun r c ↦ (nonneg_adjust h.nonneg r c).1) hp
  unchanged hz := by
    obtain ⟨p, hp⟩ := Option.isSome_iff_exists.mp hz
    exact (adjust_eq_self h.isNumber hp).1
  changed := h.exists_changed

end Adjustable

/-- An adjustment of rounded or of exact numbers keeps the entries from being negative and ends with
a zero that the search finds; a further one does nothing. -/
theorem adjusted_of_adjustable {n : ℕ} :
    (∀ t : Tableau Float n, t.Adjustable → t.Adjusted) ∧
    (∀ t : Tableau ℤ n, t.Adjustable → t.Adjusted) ∧
    ∀ t : Tableau ℚ n, t.Adjustable → t.Adjusted :=
  ⟨fun _ h ↦ h.adjusted, fun _ h ↦ h.adjusted, fun _ h ↦ h.adjusted⟩

/-- The uncovered entries below are the two least positive numbers. -/
def tight : Tableau Float 3 :=
  { ofGrid (.ofLists [[0, 3, 0.1], [2, 5e-324, 1e-323], [0.5, 1, 1e-323]] (by decide)) with
    cover := ⟨#v[true, false, false], #v[true, false, false]⟩ }

theorem adjusted_of_adjustable_tight :
    tight.Adjusted ∧ tight.adjustEvents = [.adjusted 5e-324] ∧
      (tight.adjust.grid 1 1 == 0) = true ∧ (tight.adjust.grid 1 2 == 0) = false := by
  have hadjustable : tight.Adjustable :=
    ⟨by decide +kernel, by decide +kernel, (1, 1), by decide⟩
  exact ⟨adjusted_of_adjustable.1 tight hadjustable, by decide +kernel, by decide +kernel,
    by decide +kernel⟩

end LinearAssignment.Tableau
