import LinearAssignment.Proofs.Matching.Flip
import Mathlib.Combinatorics.Enumerative.DoubleCounting
import Mathlib.Data.Fintype.EquivFin

/-!
The size of a matching: as many rows are matched as columns, and a matching of less than all leaves
a row free.
-/

namespace LinearAssignment.Matching

open Finset

variable {n : ℕ} {m : Matching n}

def matchedRows (m : Matching n) : Finset (Fin n) := {r | (m.colOf.get r).isSome = true}

def matchedCols (m : Matching n) : Finset (Fin n) := {c | (m.rowOf.get c).isSome = true}

@[simp] theorem mem_matchedRows {r : Fin n} :
    r ∈ m.matchedRows ↔ (m.colOf.get r).isSome = true := by simp [matchedRows]

@[simp] theorem mem_matchedCols {c : Fin n} :
    c ∈ m.matchedCols ↔ (m.rowOf.get c).isSome = true := by simp [matchedCols]

theorem card_matchedCols (m : Matching n) : #m.matchedCols = m.size := by
  have htable : m.rowOf.toList = (List.finRange n).map m.rowOf.get :=
    List.ext_getElem (by simp) fun i hi hj ↦ by simp [Table.get_eq_getElem]
  rw [size, htable, List.countP_map, List.countP_eq_length_filter,
    ← List.toFinset_card_of_nodup ((List.nodup_finRange n).filter _)]
  congr 1
  ext c
  simp

theorem size_le (m : Matching n) : m.size ≤ n := by
  rw [← card_matchedCols]
  exact (card_le_univ _).trans_eq (Fintype.card_fin n)

theorem size_eq_iff : m.size = n ↔ ∀ c, (m.rowOf.get c).isSome = true := by
  rw [← card_matchedCols]
  refine (Eq.congr_right (Fintype.card_fin n).symm).trans (card_eq_iff_eq_univ _ |>.trans ?_)
  simp [Finset.ext_iff]

namespace Consistent

theorem exists_col (h : m.Consistent) {r : Fin n} (hr : (m.colOf.get r).isSome = true) :
    ∃ c : Fin n, m.colOf.get r = some c.val := by
  obtain ⟨c, hc⟩ := Option.isSome_iff_exists.mp hr
  exact ⟨⟨c, h.col_lt r c hc⟩, hc⟩

theorem exists_row (h : m.Consistent) {c : Fin n} (hc : (m.rowOf.get c).isSome = true) :
    ∃ r : Fin n, m.rowOf.get c = some r.val := by
  obtain ⟨r, hr⟩ := Option.isSome_iff_exists.mp hc
  exact ⟨⟨r, h.row_lt c r hr⟩, hr⟩

theorem col_unique (h : m.Consistent) {r : Fin n} {c d : Fin n}
    (hc : m.rowOf.get c = some r.val) (hd : m.rowOf.get d = some r.val) : c = d :=
  Fin.ext (Option.some.inj (((h.agree r c).mpr hc).symm.trans ((h.agree r d).mpr hd)))

theorem row_unique (h : m.Consistent) {r s : Fin n} {c : Fin n}
    (hr : m.colOf.get r = some c.val) (hs : m.colOf.get s = some c.val) : r = s :=
  Fin.ext (Option.some.inj (((h.agree r c).mp hr).symm.trans ((h.agree s c).mp hs)))

theorem eq_of_colOf {s : Matching n} (h : m.Consistent) (hs : s.Consistent)
    (hcols : ∀ r, m.colOf.get r = s.colOf.get r) : m = s := by
  refine Matching.ext (Table.ext_get hcols) (Table.ext_get fun c ↦ Option.ext fun x ↦ ?_)
  constructor <;> intro hx
  · exact (hs.agree ⟨x, h.row_lt c x hx⟩ c).mp (hcols _ ▸ (h.agree _ c).mpr hx)
  · exact (h.agree ⟨x, hs.row_lt c x hx⟩ c).mp ((hcols _).trans ((hs.agree _ c).mpr hx))

theorem transpose (h : m.Consistent) : m.transpose.Consistent where
  col_lt := h.row_lt
  row_lt := h.col_lt
  agree r c := (h.agree c r).symm

theorem card_matchedRows_le (h : m.Consistent) : #m.matchedRows ≤ #m.matchedCols := by
  refine card_le_card_of_forall_subsingleton (fun r c ↦ m.colOf.get r = some c.val) ?_ ?_
  · intro r hr
    obtain ⟨c, hc⟩ := h.exists_col (mem_matchedRows.mp hr)
    exact ⟨c, by simp [(h.agree r c).mp hc], hc⟩
  · rintro c - r ⟨-, hr⟩ s ⟨-, hs⟩
    exact h.row_unique hr hs

theorem card_matchedRows (h : m.Consistent) : #m.matchedRows = m.size := by
  rw [← card_matchedCols]
  exact h.card_matchedRows_le.antisymm h.transpose.card_matchedRows_le

theorem exists_free_row (h : m.Consistent) (hm : m.size < n) :
    ∃ r, m.colOf.get r = none := by
  by_contra! hall
  refine hm.ne (h.card_matchedRows.symm.trans ?_)
  rw [eq_univ_of_forall (s := m.matchedRows) fun r ↦ by simp [Option.isSome_iff_ne_none, hall],
    card_univ, Fintype.card_fin]

end Consistent

end LinearAssignment.Matching
