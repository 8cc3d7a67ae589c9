import LinearAssignment.CostMatrix
import LinearAssignment.Proofs.Matching.Size
import Mathlib.Data.List.Sort
import Mathlib.Data.Fintype.Perm

/-!
Perfect matchings: a consistent matching of all columns is a permutation, and its pairs in order
are those of the rows in order.
-/

namespace LinearAssignment

namespace Matching

variable {n : ℕ} {m : Matching n}

instance : IsTrans (ℕ × ℕ) PairLe where
  trans := by
    rintro ⟨a, b⟩ ⟨c, d⟩ ⟨e, f⟩ h h'
    simp only [PairLe] at *
    omega

instance : Std.Antisymm PairLe where
  antisymm := by
    rintro ⟨a, b⟩ ⟨c, d⟩ h h'
    simp only [PairLe] at *
    grind

instance : Std.Total PairLe where
  total := by
    rintro ⟨a, b⟩ ⟨c, d⟩
    simp only [PairLe]
    omega

theorem insertPair_eq (p : ℕ × ℕ) (ps : List (ℕ × ℕ)) :
    insertPair p ps = ps.orderedInsert PairLe p := by
  induction ps with
  | nil => rfl
  | cons q ps ih => rw [insertPair, List.orderedInsert_cons, ih]

theorem pairwise_pairs (m : Matching n) : m.pairs.Pairwise PairLe := by
  have hpairs : m.pairs = m.pairsByCol.insertionSort PairLe := by
    rw [pairs, List.insertionSort]
    congr
    funext p ps
    exact insertPair_eq p ps
  rw [hpairs]
  exact List.pairwise_insertionSort _ _

/-- A matching that holds the pairs of a permutation. -/
def Perfect (m : Matching n) (π : Equiv.Perm (Fin n)) : Prop :=
  ∀ r, m.colOf.get r = some (π r).val ∧ m.rowOf.get (π r) = some r.val

theorem Consistent.exists_perfect (h : m.Consistent)
    (hall : ∀ c, (m.rowOf.get c).isSome = true) : ∃ π, m.Perfect π := by
  choose f hf using fun c ↦ h.exists_row (hall c)
  have hinj : Function.Injective f := fun c d e ↦ h.col_unique (hf c) (e ▸ hf d)
  let π := Equiv.ofBijective f (Finite.injective_iff_bijective.mp hinj)
  refine ⟨π.symm, fun r ↦ ?_⟩
  have hr : m.rowOf.get (π.symm r) = some r.val := by
    rw [hf]
    exact congrArg (fun r : Fin n ↦ some r.val) (π.apply_symm_apply r)
  exact ⟨(h.agree _ _).mpr hr, hr⟩

namespace Perfect

variable {π : Equiv.Perm (Fin n)} (h : m.Perfect π)
include h

theorem unique {σ : Equiv.Perm (Fin n)} (h' : m.Perfect σ) : π = σ := by
  ext r
  exact Option.some.inj ((h r).1.symm.trans (h' r).1)

theorem pairsByCol_eq :
    m.pairsByCol = (List.finRange n).map fun c ↦ ((π.symm c).val, c.val) := by
  rw [pairsByCol, ← List.filterMap_eq_map]
  congr
  funext c
  have hc := (h (π.symm c)).2
  rw [π.apply_symm_apply] at hc
  rw [hc]
  rfl

theorem pairs_eq : m.pairs = (List.finRange n).map fun r ↦ (r.val, (π r).val) := by
  refine List.Perm.eq_of_pairwise' (r := PairLe) (pairwise_pairs m) ?_ ?_
  · rw [List.pairwise_map]
    exact (List.pairwise_lt_finRange n).imp fun hrs ↦ .inl hrs
  · refine (perm_pairs m).trans ?_
    rw [h.pairsByCol_eq]
    refine ((π.map_finRange_perm.map fun c ↦ ((π.symm c).val, c.val)).symm).trans ?_
    simp [List.map_map, Function.comp_def]

theorem map_fst_pairs : m.pairs.map Prod.fst = List.range n := by
  simp [h.pairs_eq, Function.comp_def]

theorem map_snd_pairs : (m.pairs.map Prod.snd).Perm (List.range n) := by
  rw [← List.map_coe_finRange_eq_range, h.pairs_eq, List.map_map]
  simpa [List.map_map, Function.comp_def] using π.map_finRange_perm.map Fin.val

theorem mem_pairs {r : Fin n} {c : ℕ} : (r.val, c) ∈ m.pairs ↔ m.colOf.get r = some c := by
  rw [h.pairs_eq, (h r).1]
  constructor
  · intro hmem
    obtain ⟨s, -, hs⟩ := List.mem_map.mp hmem
    obtain ⟨hr, rfl⟩ := Prod.mk.inj hs
    rw [Fin.ext hr]
  · intro hc
    exact List.mem_map.mpr ⟨r, List.mem_finRange r, by rw [Option.some.inj hc]⟩

theorem total_eq {α : Type} [Cost α] (g : Grid α n) :
    CostMatrix.total g.toLists m.pairs =
      .ok (Cost.sum ((List.finRange n).map fun r ↦ g r (π r))) := by
  have hcost (r : Fin n) : CostMatrix.cost g.toLists r (π r) = .ok (g r (π r)) := by
    have hrow : entry g.toLists r = .ok (g.row r) := by
      rw [entry_of_lt (by simp [Grid.toLists])]
      simp [Grid.toLists]
    have hcol : entry (g.row r) (π r) = .ok (g r (π r)) := by
      rw [entry_of_lt (by simp [Grid.row])]
      simp [Grid.row]
    rw [CostMatrix.cost, hrow]
    exact hcol
  have hall (rs : List (Fin n)) :
      (rs.map fun r ↦ (r.val, (π r).val)).mapM (fun p ↦ CostMatrix.cost g.toLists p.1 p.2) =
        .ok (rs.map fun r ↦ g r (π r)) := by
    induction rs with
    | nil => rfl
    | cons r rs ih =>
      rw [List.map_cons, List.mapM_cons, ih, hcost]
      rfl
  rw [h.pairs_eq, CostMatrix.total, hall]
  rfl

end Perfect

end Matching

end LinearAssignment
