import LinearAssignment.Proofs.Binary64.Product
import LinearAssignment.Proofs.Grid.Order
import LinearAssignment.Proofs.Tableau.Start

/-!
Which matrices are admitted, and which defect is named of any other: that of the first row that has
one, whatever the rows below it are. In a row the length is looked at first, then the entries from
left to right, then the range.
-/

namespace LinearAssignment

open Cost Binary64

namespace Cost

variable {α : Type} [Cost α] {vs : List α} {lo hi lo' hi' : α}

/-- A least and a greatest entry of a list. -/
structure Extremes (vs : List α) (lo hi : α) : Prop where
  lo_mem : lo ∈ vs
  hi_mem : hi ∈ vs
  lo_le (v : α) (h : v ∈ vs) : ¬v < lo
  le_hi (v : α) (h : v ∈ vs) : ¬hi < v

variable [Lawful α]

theorem exists_extremes (hn : ∀ v ∈ vs, isNumber v = true) (hne : vs ≠ []) :
    ∃ lo hi, least? vs = some lo ∧ greatest? vs = some hi ∧ Extremes vs lo hi := by
  obtain ⟨lo, hlo, hleast, hle⟩ := exists_least? hn hne
  obtain ⟨hi, hhi, hgreatest, hge⟩ := exists_greatest? hn hne
  refine ⟨lo, hi, hleast, hgreatest, hlo, hhi, ?_, ?_⟩
  · intro v hv
    rw [Lawful.lt_iff (hn v hv) (hn lo hlo)]
    exact (hle v hv).not_gt
  · intro v hv
    rw [Lawful.lt_iff (hn hi hhi) (hn v hv)]
    exact (hge v hv).not_gt

namespace Extremes

variable (hn : ∀ v ∈ vs, isNumber v = true) (h : Extremes vs lo hi)
include hn h

theorem value_le {v : α} (hv : v ∈ vs) :
    Lawful.value lo ≤ Lawful.value v ∧ Lawful.value v ≤ Lawful.value hi := by
  constructor
  · exact not_lt.mp ((Lawful.lt_iff (hn v hv) (hn lo h.lo_mem)).not.mp (h.lo_le v hv))
  · exact not_lt.mp ((Lawful.lt_iff (hn hi h.hi_mem) (hn v hv)).not.mp (h.le_hi v hv))

theorem value_eq (h' : Extremes vs lo' hi') :
    Lawful.value lo = Lawful.value lo' ∧ Lawful.value hi = Lawful.value hi' := by
  constructor
  · exact le_antisymm (h.value_le hn h'.lo_mem).1 (h'.value_le hn h.lo_mem).1
  · exact le_antisymm (h'.value_le hn h.hi_mem).2 (h.value_le hn h'.hi_mem).2

end Extremes

end Cost

namespace CostMatrix

/-- What a row of a matrix of size `n` must be. -/
structure Admissible {α : Type} [Cost α] (n : ℕ) (vs : List α) : Prop where
  length : vs.length = n
  finite (v : α) (h : v ∈ vs) : isFinite v = true
  range (lo hi : α) (h : Extremes vs lo hi) : isFinite (times (hi - lo) (2 * n)) = true

/-- The defect of row number `row` of a matrix of size `n`. -/
inductive Defective {α : Type} [Cost α] (n row : ℕ) (vs : List α) : Defect → Prop
  | notSquare (hlen : vs.length ≠ n) : Defective n row vs (.notSquare row vs.length n)
  | nonFinite {col : ℕ} (hlen : vs.length = n) (hcol : col < vs.length)
      (hinfinite : isFinite vs[col] = false)
      (hfirst : ∀ (j : ℕ) (hj : j < col), isFinite vs[j] = true) :
      Defective n row vs (.nonFinite row col)
  | tooWide {lo hi : α} (hlen : vs.length = n) (hfinite : ∀ v ∈ vs, isFinite v = true)
      (hextremes : Extremes vs lo hi) (hwide : isFinite (times (hi - lo) (2 * n)) = false) :
      Defective n row vs (.tooWide row)

/-- The defect that is named of a matrix. -/
inductive FirstDefect {α : Type} [Cost α] (costs : CostMatrix α) : Defect → Prop
  | empty (h : costs = []) : FirstDefect costs .empty
  | row {d : Defect} (r : Fin costs.length)
      (hbefore : ∀ i < r, Admissible costs.length (costs.get i))
      (hr : Defective costs.length r (costs.get r) d) : FirstDefect costs d

variable {vs : List Float} {lo hi lo' hi' : Float} {n row : ℕ} {d : Defect}

/-- Equal numbers span the same range, zeros of either sign included. -/
theorem isFinite_times_range (hlo : isFinite lo = true) (hhi : isFinite hi = true)
    (hlo' : isFinite lo' = true) (hhi' : isFinite hi' = true)
    (hle : Lawful.value lo ≤ Lawful.value hi) (hlow : Lawful.value lo = Lawful.value lo')
    (hhigh : Lawful.value hi = Lawful.value hi') {k : ℕ}
    (h : isFinite (times (hi' - lo') k) = true) : isFinite (times (hi - lo) k) = true := by
  have hlevel : level (hi - lo) = level (hi' - lo') := by
    calc level (hi - lo) = stored (level hi - level lo) := (level_sub hhi hlo).2
      _ = stored (level hi' - level lo') := by rw [value_inj.mp hlow, value_inj.mp hhigh]
      _ = level (hi' - lo') := (level_sub hhi' hlo').2.symm
  have hnonneg := nonneg_sub (Lawful.isNumber_of_isFinite hhi) hlo hle
  exact isFinite_mul_of_le hnonneg.1 (value_nonneg.mp (nonneg_iff.mp hnonneg).2) hlevel.le h

theorem spanFits_iff (hne : vs ≠ []) (hfinite : ∀ v ∈ vs, isFinite v = true) :
    spanFits n vs = true ↔
      ∀ lo hi, Extremes vs lo hi → isFinite (times (hi - lo) (2 * n)) = true := by
  have hn (v : Float) (hv : v ∈ vs) : isNumber v = true :=
    Lawful.isNumber_of_isFinite (hfinite v hv)
  obtain ⟨lo, hi, hleast, hgreatest, h⟩ := exists_extremes hn hne
  unfold spanFits
  rw [hleast, hgreatest]
  constructor
  · intro hfits lo' hi' h'
    obtain ⟨hlow, hhigh⟩ := h'.value_eq hn h
    exact isFinite_times_range (hfinite _ h'.lo_mem) (hfinite _ h'.hi_mem) (hfinite _ h.lo_mem)
      (hfinite _ h.hi_mem) (h'.value_le hn h'.hi_mem).1 hlow hhigh hfits
  · intro hall
    exact hall lo hi h

theorem rowDefect?_eq_none_iff_admissible (hn : 0 < n) :
    rowDefect? n row vs = none ↔ Admissible n vs := by
  rw [rowDefect?_eq_none_iff]
  constructor
  · rintro ⟨rfl, hfinite, hfits⟩
    exact ⟨rfl, hfinite, (spanFits_iff (List.length_pos_iff.mp hn) hfinite).mp hfits⟩
  · rintro ⟨rfl, hfinite, hrange⟩
    exact ⟨rfl, hfinite, (spanFits_iff (List.length_pos_iff.mp hn) hfinite).mpr hrange⟩

theorem defective_of_rowDefect? (hn : 0 < n) (h : rowDefect? n row vs = some d) :
    Defective n row vs d := by
  unfold rowDefect? at h
  by_cases hlen : vs.length = n
  · rw [if_pos hlen] at h
    cases hcol : vs.findIdx? fun v ↦ !isFinite v with
    | some col =>
      rw [hcol] at h
      cases h
      obtain ⟨hlt, hinfinite, hfirst⟩ := List.findIdx?_eq_some_iff_getElem.mp hcol
      refine .nonFinite hlen hlt (by simpa using hinfinite) ?_
      intro j hj
      simpa using hfirst j hj
    | none =>
      have hfinite (v : Float) (hv : v ∈ vs) : isFinite v = true := by
        simpa using List.findIdx?_eq_none_iff.mp hcol v hv
      have hne : vs ≠ [] := List.length_pos_iff.mp (hlen ▸ hn)
      rw [hcol] at h
      by_cases hfits : spanFits n vs = true
      · simp [hfits] at h
      · obtain rfl : Defect.tooWide row = d := by simpa [hfits] using h
        rw [spanFits_iff hne hfinite] at hfits
        push Not at hfits
        obtain ⟨lo, hi, hextremes, hwide⟩ := hfits
        exact .tooWide hlen hfinite hextremes (by simpa using hwide)
  · rw [if_neg hlen] at h
    cases h
    exact .notSquare hlen

theorem Defective.rowDefect?_eq (h : Defective n row vs d) : rowDefect? n row vs = some d := by
  unfold rowDefect?
  cases h with
  | notSquare hlen => exact if_neg hlen
  | nonFinite hlen hcol hinfinite hfirst =>
    have hfind := List.findIdx?_eq_some_iff_getElem (p := fun v ↦ !isFinite v).mpr
      ⟨hcol, by simpa using hinfinite, fun j hj ↦ by simpa using hfirst j hj⟩
    rw [if_pos hlen, hfind]
  | tooWide hlen hfinite hextremes hwide =>
    have hfind : (vs.findIdx? fun v ↦ !isFinite v) = none := by
      simpa [List.findIdx?_eq_none_iff] using hfinite
    have hfits : ¬spanFits n vs = true := by
      intro hfits
      have hrange := (spanFits_iff (List.ne_nil_of_mem hextremes.lo_mem) hfinite).mp hfits
      rw [hrange _ _ hextremes] at hwide
      cases hwide
    rw [if_pos hlen, hfind]
    dsimp only
    rw [if_neg hfits]

variable {costs : CostMatrix Float}

theorem defect?_eq_some_iff : costs.defect? = some d ↔ FirstDefect costs d := by
  by_cases hne : costs = []
  · subst hne
    constructor
    · intro h
      cases h
      exact .empty rfl
    · intro h
      cases h with
      | empty => rfl
      | row r => exact r.elim0
  · have hpos := List.length_pos_iff.mpr hne
    rw [defect?_eq_findSome? hne, findSome?_finRange_eq_some_iff]
    constructor
    · rintro ⟨r, hr, hbefore⟩
      refine .row r ?_ (defective_of_rowDefect? hpos hr)
      intro i hi
      exact (rowDefect?_eq_none_iff_admissible hpos).mp (hbefore i hi)
    · intro h
      cases h with
      | empty h => exact absurd h hne
      | row r hbefore hr =>
        refine ⟨r, hr.rowDefect?_eq, ?_⟩
        intro i hi
        exact (rowDefect?_eq_none_iff_admissible hpos).mpr (hbefore i hi)

theorem exists_tableau_iff : (∃ t, costs.tableau = .ok t) ↔
    costs ≠ [] ∧ ∀ vs ∈ costs, Admissible costs.length vs := by
  rw [show (∃ t, costs.tableau = .ok t) ↔ costs.defect? = none by simp [tableau_eq_ok],
    defect?_eq_none_iff]
  refine and_congr_right ?_
  intro hne
  have hpos := List.length_pos_iff.mpr hne
  simp only [rowDefect?_eq_none_iff_admissible hpos, List.forall_mem_iff_getElem]
  constructor
  · intro h i hi
    exact h ⟨i, hi⟩
  · intro h r
    exact h r.val r.isLt

/-- A matrix is admitted if it has rows and each is admissible, and the tableau then holds the costs
twice and nothing else. Of any other matrix the first defect is named. -/
theorem tableau_names_first_defect (costs : CostMatrix Float) :
    ((∃ t, costs.tableau = .ok t) ↔ costs ≠ [] ∧ ∀ vs ∈ costs, Admissible costs.length vs) ∧
    (∀ t, costs.tableau = .ok t → t.costs.toLists = costs ∧ t.grid.toLists = costs ∧
      t.matching = .empty ∧ t.cover = .empty ∧ t.marks = Tableau.noMarks ∧ t.chain = []) ∧
    (costs.tableau = .error .empty ↔ costs = []) ∧
    ∀ d, costs.tableau = .error d ↔ FirstDefect costs d := by
  have hfirst (d : Defect) : costs.tableau = .error d ↔ FirstDefect costs d :=
    tableau_eq_error_iff.trans defect?_eq_some_iff
  refine ⟨exists_tableau_iff, ?_, ?_, hfirst⟩
  · intro t ht
    obtain ⟨hd, rfl⟩ := tableau_eq_ok.mp ht
    have hlists := Grid.toLists_ofLists costs (square_of_defect? hd)
    exact ⟨hlists, hlists, rfl, rfl, rfl, rfl⟩
  · rw [hfirst]
    constructor
    · intro h
      cases h with
      | empty h => exact h
      | row r hbefore hr => cases hr
    · exact .empty

/-- The first row is admissible. The three below it have defects of three kinds, the last of the kind
that is looked for first. -/
def motley : CostMatrix Float := [[1, -1, 0.1, 7], [1e308, -1e308, 0, 1], [0, 1 / 0, 2, 0 / 0], [5, 6]]

theorem tableau_names_first_defect_motley :
    motley.tableau = .error (.tooWide 1) ∧ FirstDefect motley (.tooWide 1) := by
  have herror : motley.tableau = .error (.tooWide 1) := tableau_eq_error_iff.mpr (by decide +kernel)
  exact ⟨herror, ((tableau_names_first_defect motley).2.2.2 _).mp herror⟩

end CostMatrix

end LinearAssignment
