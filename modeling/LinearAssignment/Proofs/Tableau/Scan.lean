import LinearAssignment.Proofs.Binary64.Alike
import LinearAssignment.Proofs.Binary64.Infinite
import LinearAssignment.Proofs.Grid.Order
import LinearAssignment.Proofs.Tableau.Turn

/-!
The two scans of the uncovered cells, of any tableau without negative entries: the search for a zero
and that for the least entry. They pass over the same cells, so the one finds a zero just where the
other comes to zero.
-/

namespace LinearAssignment

open Cost Binary64

namespace Grid

section Cost

variable {α : Type} {n : ℕ} [Cost α]

/-- The search for a zero, row by row and in each uncovered row from left to right. -/
def scanZero? (g : Grid α n) (k : Cover n) : Option (Cell n) :=
  (List.finRange n).findSome? fun r ↦
    if k.rows.get r then none
    else ((List.finRange n).find? fun c ↦ !k.cols.get c && g r c == 0).map fun c ↦ (r, c)

/-- The least uncovered entry below a bound, which is lowered at every lesser entry. -/
def scanLeast (g : Grid α n) (k : Cover n) (bound : α) : α :=
  (List.finRange n).foldl (fun m r ↦
    if k.rows.get r then m
    else (List.finRange n).foldl (fun m c ↦
      if k.cols.get c = false ∧ g r c < m then g r c else m) m) bound

theorem zero?_eq_scanZero? (g : Grid α n) (k : Cover n) : g.zero? k = g.scanZero? k := by
  unfold zero? Cover.uncoveredCells cells scanZero?
  rw [List.find?_filter, List.find?_flatMap]
  congr 1
  funext r
  rw [List.find?_map]
  cases hr : k.rows.get r with
  | true => simp [Cover.uncovers, hr]
  | false => simp [Cover.uncovers, hr]

theorem foldl_lesser_eq_scanLeast (g : Grid α n) (k : Cover n) (bound : α) :
    (k.uncoveredCells.map fun p ↦ g p.1 p.2).foldl lesser bound = g.scanLeast k bound := by
  unfold Cover.uncoveredCells cells scanLeast
  rw [List.foldl_map, List.foldl_filter, List.foldl_flatMap]
  congr 1
  funext m r
  rw [List.foldl_map]
  cases hr : k.rows.get r with
  | true => simp [Cover.uncovers, hr]
  | false => simp [Cover.uncovers, hr, lesser, ite_and]

theorem zero?_eq_some_iff {g : Grid α n} {k : Cover n} {p : Cell n} :
    g.zero? k = some p ↔ (k.uncovers p = true ∧ (g p.1 p.2 == 0) = true) ∧
      ∀ q, toLex q < toLex p → ¬(k.uncovers q = true ∧ (g q.1 q.2 == 0) = true) := by
  unfold zero? Cover.uncoveredCells
  rw [List.find?_filter,
    find?_eq_some_iff_of_pairwise (pairwise_lt_cells n) fun _ _ h ↦ h.asymm]
  simp [mem_cells]

end Cost

end Grid

namespace Tableau

section Cost

variable {α : Type} {n : ℕ} [Cost α] {t : Tableau α n}

theorem markZero_fst (t : Tableau α n) : t.markZero.1 = t.zero? := by
  unfold markZero
  cases t.zero? <;> rfl

/-- A cell that is neither in a covered row nor in a covered column, and holds a zero. -/
def UncoveredZero (t : Tableau α n) (p : Cell n) : Prop :=
  t.cover.uncovers p = true ∧ (t.grid p.1 p.2 == 0) = true

end Cost

variable {n : ℕ} {t : Tableau Float n}

/-- The least uncovered entry, and infinity where there is none. -/
def leastUncovered (t : Tableau Float n) : Float := t.leastUncovered?.getD infinity

/-- What the scans of the uncovered cells come to. -/
structure Scanned (t : Tableau Float n) : Prop where
  zero : t.zero? = t.grid.scanZero? t.cover
  least : t.leastUncovered = t.grid.scanLeast t.cover infinity
  found_iff : t.markZero.1.isSome = true ↔ (t.leastUncovered == 0) = true
  first_iff (p : Cell n) : t.markZero.1 = some p ↔
    t.UncoveredZero p ∧ ∀ q, toLex q < toLex p → ¬t.UncoveredZero q
  marked (p : Cell n) (h : t.markZero.1 = some p) :
    t.markZero.2 = { t with marks := t.markZero.2.marks } ∧
      ∀ r, t.markZero.2.marks.get r = if p.1 = r then some p.2.val else t.marks.get r
  unmarked (h : t.markZero.1 = none) : t.markZero.2 = t
  not_lt_least (p : Cell n) (h : t.cover.uncovers p = true) :
    ¬t.grid p.1 p.2 < t.leastUncovered
  attained : (∃ p, t.cover.uncovers p = true ∧ t.grid p.1 p.2 = t.leastUncovered) ∨
    t.leastUncovered = infinity ∧ ∀ p, t.cover.uncovers p = false
  infinite_iff : t.leastUncovered = infinity ↔
    ∀ p, t.cover.uncovers p = true → t.grid p.1 p.2 = infinity

theorem leastUncovered_eq_scanLeast (t : Tableau Float n) :
    t.leastUncovered = t.grid.scanLeast t.cover infinity := by
  rw [← Grid.foldl_lesser_eq_scanLeast, foldl_lesser_infinity]
  rfl

theorem leastUncovered_cases (hn : ∀ r c, isNumber (t.grid r c) = true) :
    (∃ p, t.cover.uncovers p = true ∧ t.grid p.1 p.2 = t.leastUncovered ∧
      ∀ q, t.cover.uncovers q = true → level t.leastUncovered ≤ level (t.grid q.1 q.2)) ∨
    t.leastUncovered = infinity ∧ ∀ p, t.cover.uncovers p = false := by
  by_cases hsome : ∃ p, t.cover.uncovers p = true
  · obtain ⟨p, hp⟩ := hsome
    obtain ⟨m, hm, ⟨q, hq, hcell⟩, hle⟩ := Grid.exists_least_of_uncovers hn hp
    have hleast : t.leastUncovered = m := by
      rw [leastUncovered, Tableau.leastUncovered?, hm]
      rfl
    refine .inl ⟨q, hq, hcell.trans hleast.symm, ?_⟩
    intro i hi
    rw [hleast]
    exact value_le_value.mp (hle i hi)
  · have hnone (p : Cell n) : t.cover.uncovers p = false :=
      Bool.eq_false_of_not_eq_true fun hp ↦ hsome ⟨p, hp⟩
    refine .inr ⟨?_, hnone⟩
    rw [leastUncovered, Tableau.leastUncovered?, Grid.leastUncovered?_eq_none hnone]
    rfl

/-- The least uncovered entry is zero just where some uncovered entry is. -/
theorem isSome_zero?_iff (h : ∀ r c, Nonneg (t.grid r c)) :
    t.zero?.isSome = true ↔ (t.leastUncovered == 0) = true := by
  rcases leastUncovered_cases (fun r c ↦ (h r c).1) with ⟨p, hp, hcell, hle⟩ | ⟨hleast, hnone⟩
  · obtain ⟨hn, hnonneg⟩ := nonneg_iff_level.mp (h p.1 p.2)
    rw [hcell] at hn hnonneg
    constructor
    · intro hsome
      obtain ⟨q, hq⟩ := Option.isSome_iff_exists.mp hsome
      obtain ⟨hr, hc, hz⟩ := Grid.of_zero? hq
      have hzero : level (t.grid q.1 q.2) = 0 := (beq_iff_level (h _ _).1 isNumber_zero).mp hz
      have hbelow := hle q (Cover.uncovers_eq_true.mpr ⟨hr, hc⟩)
      exact (beq_iff_level hn isNumber_zero).mpr (le_antisymm (hbelow.trans_eq hzero) hnonneg)
    · intro hz
      rw [← Option.ne_none_iff_isSome]
      intro hnone
      obtain ⟨hr, hc⟩ := Cover.uncovers_eq_true.mp hp
      have hne := Grid.zero?_eq_none.mp hnone p.1 p.2 hr hc
      rw [hcell] at hne
      exact Bool.false_ne_true (hne.symm.trans hz)
  · have hzero : t.zero? = none := by
      apply Grid.zero?_eq_none.mpr
      intro r c hr hc
      have hcovered := hnone (r, c)
      rw [Cover.uncovers_eq_true.mpr ⟨hr, hc⟩] at hcovered
      cases hcovered
    rw [hzero, hleast]
    exact iff_of_false (by simp) (by decide)

theorem not_lt_leastUncovered (hn : ∀ r c, isNumber (t.grid r c) = true) {p : Cell n}
    (hp : t.cover.uncovers p = true) : ¬t.grid p.1 p.2 < t.leastUncovered := by
  rcases leastUncovered_cases hn with ⟨q, hq, hcell, hle⟩ | ⟨-, hnone⟩
  · intro hlt
    have hlevel := (lt_iff_level (hn _ _) (hcell ▸ hn q.1 q.2)).mp hlt
    exact (hle p hp).not_gt hlevel
  · rw [hnone p] at hp
    cases hp

theorem leastUncovered_eq_infinity_iff (hn : ∀ r c, isNumber (t.grid r c) = true) :
    t.leastUncovered = infinity ↔
      ∀ p, t.cover.uncovers p = true → t.grid p.1 p.2 = infinity := by
  rcases leastUncovered_cases hn with ⟨q, hq, hcell, hle⟩ | ⟨hleast, hnone⟩
  · constructor
    · intro hleast p hp
      have hbelow := hle p hp
      rw [hleast, level_infinity] at hbelow
      exact (eq_infinity_iff (hn _ _)).mpr (le_antisymm (level_mem_bound _).2 hbelow)
    · intro hall
      rw [← hcell, hall q hq]
  · refine iff_of_true hleast ?_
    intro p hp
    rw [hnone p] at hp
    cases hp

/-- Where no entry is negative or undefined, the search finds the first uncovered zero in row-major
order, and finds one if and only if the least uncovered entry is zero. -/
theorem scanned_of_nonneg (t : Tableau Float n) (h : ∀ r c, Nonneg (t.grid r c)) : t.Scanned where
  zero := t.grid.zero?_eq_scanZero? t.cover
  least := t.leastUncovered_eq_scanLeast
  found_iff := by rw [markZero_fst, isSome_zero?_iff h]
  first_iff p := by
    rw [markZero_fst]
    exact Grid.zero?_eq_some_iff
  marked p hp := by
    rw [markZero_fst] at hp
    rw [markZero_of_some hp]
    exact ⟨rfl, marks_mark t p⟩
  unmarked hnone := by
    rw [markZero_fst] at hnone
    rw [markZero_of_none hnone]
  not_lt_least p hp := not_lt_leastUncovered (fun r c ↦ (h r c).1) hp
  attained := (leastUncovered_cases fun r c ↦ (h r c).1).imp_left
    fun ⟨p, hp, hcell, _⟩ ↦ ⟨p, hp, hcell⟩
  infinite_iff := leastUncovered_eq_infinity_iff fun r c ↦ (h r c).1

/-- The first zero is covered, the next two are not, and infinite entries stand between them. -/
def patchy : Tableau Float 3 :=
  { ofGrid (.ofLists [[0, infinity, 2], [infinity, 0, -0], [1, infinity, infinity]] (by decide)) with
    cover := ⟨.ofFn (·.val == 0), .ofFn (·.val == 0)⟩ }

theorem scanned_of_nonneg_patchy :
    (∀ r c, Nonneg (patchy.grid r c)) ∧ patchy.Scanned ∧ patchy.markZero.1 = some (1, 1) ∧
      (patchy.leastUncovered == 0) = true := by
  have hnonneg : ∀ r c, Nonneg (patchy.grid r c) := by decide +kernel
  have hscanned : patchy.Scanned := scanned_of_nonneg patchy hnonneg
  have hfirst : patchy.markZero.1 = some (1, 1) := by decide +kernel
  exact ⟨hnonneg, hscanned, hfirst, hscanned.found_iff.mp (by rw [hfirst]; rfl)⟩

end Tableau

end LinearAssignment
