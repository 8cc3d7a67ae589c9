import LinearAssignment.Proofs.Grid.Order
import LinearAssignment.Proofs.Matching.Greedy
import LinearAssignment.Proofs.Matching.Size
import LinearAssignment.Tableau
import Mathlib.Data.List.FinRange

/-!
The greedy extension is the pass over the cells in row-major order that links every zero whose row
and column are both free. The matching that it leaves is known from the grid and the matching it
began with: each free row takes the least column open to it.
-/

namespace LinearAssignment

namespace Matching

variable {α : Type} {n : ℕ} [Cost α] {g : Grid α n} {m s : Matching n} {r : Fin n}

/-- Links a cell if it holds a zero and neither its row nor its column is matched. -/
def takeCell (g : Grid α n) (m : Matching n) (p : Cell n) : Matching n :=
  if (g p.1 p.2 == 0) = true ∧ m.colOf.get p.1 = none ∧ m.rowOf.get p.2 = none then
    m.link p.1 p.2
  else m

theorem foldl_takeCell_of_isSome (h : (m.colOf.get r).isSome) (cs : List (Fin n)) :
    cs.foldl (fun m c ↦ takeCell g m (r, c)) m = m := by
  induction cs with
  | nil => rfl
  | cons c cs ih =>
    have hskip : takeCell g m (r, c) = m := if_neg fun ⟨_, hr, _⟩ ↦ by simp [hr] at h
    rw [List.foldl_cons, hskip, ih]

theorem foldl_takeCell_of_eq_none (h : m.colOf.get r = none) (cs : List (Fin n)) :
    cs.foldl (fun m c ↦ takeCell g m (r, c)) m =
      match cs.find? fun c ↦ g r c == 0 && (m.rowOf.get c).isNone with
      | some c => m.link r c
      | none => m := by
  induction cs with
  | nil => rfl
  | cons c cs ih =>
    rw [List.foldl_cons, List.find?_cons]
    cases hc : g r c == 0 && (m.rowOf.get c).isNone with
    | true =>
      have htake : takeCell g m (r, c) = m.link r c := if_pos (by simpa [h] using hc)
      rw [htake, foldl_takeCell_of_isSome (by simp [colOf_link])]
    | false =>
      have hskip : takeCell g m (r, c) = m := if_neg fun ⟨hz, _, hfree⟩ ↦ by simp [hz, hfree] at hc
      rw [hskip, ih]

theorem extendRow_eq_foldl (g : Grid α n) (m : Matching n) (r : Fin n) :
    extendRow g m r = (List.finRange n).foldl (fun m c ↦ takeCell g m (r, c)) m := by
  cases hr : m.colOf.get r with
  | some c =>
    have hsome : (m.colOf.get r).isSome := by simp [hr]
    rw [extendRow_of_isSome hsome, foldl_takeCell_of_isSome hsome]
  | none =>
    rw [foldl_takeCell_of_eq_none hr, extendRow, if_neg (by simp [hr])]
    rfl

theorem extend_eq_foldl_cells (g : Grid α n) (m : Matching n) :
    m.extend g = (cells n).foldl (takeCell g) m := by
  have hrow : extendRow g =
      fun m r ↦ ((List.finRange n).map fun c ↦ (r, c)).foldl (takeCell g) m := by
    funext m r
    rw [List.foldl_map, extendRow_eq_foldl]
  rw [extend, hrow, cells, List.foldl_flatMap]

theorem freeZero?_eq_some_iff {c : Fin n} :
    freeZero? g m r = some c ↔
      ((g r c == 0) = true ∧ m.rowOf.get c = none) ∧
        ∀ d < c, ¬((g r d == 0) = true ∧ m.rowOf.get d = none) := by
  rw [freeZero?, find?_eq_some_iff_of_pairwise (List.pairwise_lt_finRange n) fun _ _ h ↦ h.asymm]
  simp [Option.isSome_iff_ne_none]

theorem freeZero?_eq_none_iff :
    freeZero? g m r = none ↔ ∀ c, ¬((g r c == 0) = true ∧ m.rowOf.get c = none) := by
  simp [freeZero?]

theorem colOf_extendRow_self (h : m.colOf.get r = none) :
    (extendRow g m r).colOf.get r = (freeZero? g m r).map Fin.val := by
  cases hc : freeZero? g m r with
  | some c => simp [extendRow_of_freeZero? h hc, colOf_link]
  | none => simp [extendRow_of_freeZero?_eq_none hc, h]

theorem colOf_extendRow_of_ne {i : Fin n} (h : r ≠ i) :
    (extendRow g m r).colOf.get i = m.colOf.get i := by
  cases hr : m.colOf.get r with
  | some c => rw [extendRow_of_isSome (by simp [hr])]
  | none =>
    cases hc : freeZero? g m r with
    | some c => rw [extendRow_of_freeZero? hr hc, colOf_link, if_neg (Fin.val_ne_of_ne h)]
    | none => rw [extendRow_of_freeZero?_eq_none hc]

theorem colOf_foldl_extendRow {i : Fin n} {rs : List (Fin n)} (h : i ∉ rs) :
    (rs.foldl (extendRow g) m).colOf.get i = m.colOf.get i := by
  induction rs generalizing m with
  | nil => rfl
  | cons r rs ih =>
    obtain ⟨hne, hrs⟩ := not_or.mp (List.mem_cons.not.mp h)
    rw [List.foldl_cons, ih hrs, colOf_extendRow_of_ne (Ne.symm hne)]

theorem exists_finRange_eq_append (r : Fin n) :
    ∃ before after, List.finRange n = before ++ r :: after ∧ (∀ i, i ∈ before ↔ i < r) ∧
      ∀ i ∈ after, r < i := by
  obtain ⟨before, after, hsplit⟩ := List.append_of_mem (List.mem_finRange r)
  have hsorted := hsplit ▸ List.pairwise_lt_finRange n
  obtain ⟨-, hafter, hbefore⟩ := List.pairwise_append.mp hsorted
  refine ⟨before, after, hsplit, fun i ↦ ⟨fun hi ↦ hbefore i hi r List.mem_cons_self, fun hi ↦ ?_⟩,
    (List.pairwise_cons.mp hafter).1⟩
  exact mem_of_pairwise_append hsorted (fun _ _ h ↦ h.asymm) (hsplit ▸ List.mem_finRange i) hi

/-- The matching with which the pass comes to a row: it differs from the first in the rows above
alone, and those are matched as they will be at the end. -/
theorem Consistent.exists_before (h : m.Consistent) (g : Grid α n) (r : Fin n) :
    ∃ m₁ : Matching n, m₁.colOf.get r = m.colOf.get r ∧
      (m.extend g).colOf.get r = (extendRow g m₁ r).colOf.get r ∧
        ∀ c, m₁.rowOf.get c = none ↔
          m.rowOf.get c = none ∧ ∀ i < r, (m.extend g).colOf.get i ≠ some c.val := by
  obtain ⟨before, after, hsplit, hbefore, hafter⟩ := exists_finRange_eq_append r
  have hextend : m.extend g =
      after.foldl (extendRow g) (extendRow g (before.foldl (extendRow g) m) r) := by
    rw [Matching.extend, hsplit, List.foldl_append, List.foldl_cons]
  have habove {i : Fin n} (hi : i < r) :
      (m.extend g).colOf.get i = (before.foldl (extendRow g) m).colOf.get i := by
    rw [hextend, colOf_foldl_extendRow fun hi' ↦ (hafter i hi').asymm hi,
      colOf_extendRow_of_ne hi.ne']
  have hconsistent : (before.foldl (extendRow g) m).Consistent :=
    foldl_extendRow_induction (P := Consistent) (fun _ _ _ hm hr hc _ ↦ hm.link hr hc) h before
  refine ⟨before.foldl (extendRow g) m, ?_, ?_, fun c ↦ ⟨fun hc ↦ ⟨?_, fun i hi hic ↦ ?_⟩, ?_⟩⟩
  · exact colOf_foldl_extendRow fun hr ↦ lt_irrefl r ((hbefore r).mp hr)
  · rw [hextend, colOf_foldl_extendRow fun hr ↦ lt_irrefl r (hafter r hr)]
  · refine Option.eq_none_iff_forall_ne_some.mpr fun x hx ↦ ?_
    simp [rowOf_foldl_extendRow_of_some hx] at hc
  · rw [habove hi] at hic
    simp [(hconsistent.agree i c).mp hic] at hc
  · rintro ⟨hc, hrows⟩
    by_contra hne
    obtain ⟨i, hi⟩ := hconsistent.exists_row (Option.isSome_iff_ne_none.mpr hne)
    have hcol := (hconsistent.agree i c).mpr hi
    -- a row above is matched as at the end, any other as in the first matching
    rcases lt_or_ge i r with hir | hir
    · exact hrows i hir ((habove hir).trans hcol)
    · rw [colOf_foldl_extendRow fun hi' ↦ hir.not_gt ((hbefore i).mp hi')] at hcol
      simp [(h.agree i c).mp hcol] at hc

/-- A zero in a column that neither a pair of the first matching nor a row above has claimed. -/
def Open (g : Grid α n) (m s : Matching n) (r c : Fin n) : Prop :=
  (g r c == 0) = true ∧ m.rowOf.get c = none ∧ ∀ i < r, s.colOf.get i ≠ some c.val

/-- What the greedy extension of a matching is, read off the grid row by row. -/
structure Greedy (g : Grid α n) (m s : Matching n) : Prop where
  consistent : s.Consistent
  kept (r : Fin n) (x : ℕ) (h : m.colOf.get r = some x) : s.colOf.get r = some x
  least (r c : Fin n) (h : m.colOf.get r = none) :
    s.colOf.get r = some c.val ↔ Open g m s r c ∧ ∀ d < c, ¬Open g m s r d
  unmatched (r : Fin n) (h : m.colOf.get r = none) :
    s.colOf.get r = none ↔ ∀ c, ¬Open g m s r c

theorem Consistent.greedy_extend (h : m.Consistent) (g : Grid α n) : Greedy g m (m.extend g) where
  consistent := h.extend
  kept r x hx := colOf_foldl_extendRow_of_some hx
  least r c hr := by
    obtain ⟨m₁, hm₁, hrow, hfree⟩ := h.exists_before g r
    rw [hrow, colOf_extendRow_self (hm₁.trans hr)]
    simp only [Open, ← hfree, ← freeZero?_eq_some_iff]
    simp [Option.map_eq_some_iff, Fin.val_inj]
  unmatched r hr := by
    obtain ⟨m₁, hm₁, hrow, hfree⟩ := h.exists_before g r
    rw [hrow, colOf_extendRow_self (hm₁.trans hr)]
    simp only [Open, ← hfree, ← freeZero?_eq_none_iff, Option.map_eq_none_iff]

namespace Greedy

theorem zero (h : Greedy g m s) {c : Fin n} (hr : m.colOf.get r = none)
    (hc : s.colOf.get r = some c.val) : (g r c == 0) = true :=
  ((h.least r c hr).mp hc).1.1

theorem maximal (h : Greedy g m s) (hm : m.Consistent) {c : Fin n} (hz : (g r c == 0) = true)
    (hr : s.colOf.get r = none) : s.rowOf.get c ≠ none := by
  intro hc
  have hrow : m.colOf.get r = none := by
    refine Option.eq_none_iff_forall_ne_some.mpr fun x hx ↦ ?_
    simp [h.kept r x hx] at hr
  have hcol : m.rowOf.get c = none := by
    by_contra hne
    obtain ⟨i, hi⟩ := hm.exists_row (Option.isSome_iff_ne_none.mpr hne)
    have hkept := h.kept i c ((hm.agree i c).mpr hi)
    simp [(h.consistent.agree i c).mp hkept] at hc
  refine (h.unmatched r hrow).mp hr c ⟨hz, hcol, fun i _ hi ↦ ?_⟩
  simp [(h.consistent.agree i c).mp hi] at hc

/-- The rows fix the matching one after the other. -/
theorem unique {s' : Matching n} (h : Greedy g m s) (h' : Greedy g m s') : s = s' := by
  refine h.consistent.eq_of_colOf h'.consistent fun r ↦ ?_
  induction r using WellFoundedLT.induction with
  | ind r ih =>
    cases hr : m.colOf.get r with
    | some x => rw [h.kept r x hr, h'.kept r x hr]
    | none =>
      have hopen (c : Fin n) : Open g m s r c ↔ Open g m s' r c :=
        and_congr_right' (and_congr_right' (forall₂_congr fun i hi ↦ by rw [ih i hi]))
      have hcol (c : Fin n) : s.colOf.get r = some c.val ↔ s'.colOf.get r = some c.val := by
        simp only [h.least r c hr, h'.least r c hr, hopen]
      refine Option.ext fun x ↦ ⟨fun hx ↦ ?_, fun hx ↦ ?_⟩
      · exact (hcol ⟨x, h.consistent.col_lt r x hx⟩).mp hx
      · exact (hcol ⟨x, h'.consistent.col_lt r x hx⟩).mpr hx

end Greedy

end Matching

namespace Tableau

open Matching

variable {α : Type} {n : ℕ} [Cost α]

/-- From any matching whose tables agree, the pass over the cells leaves the greedy extension and
nothing else: no other matching is read off the grid in that way. Each pair it adds is a zero, and
no zero is left whose row and column are both free. -/
theorem extend_greedy (t : Tableau α n) (h : t.matching.Consistent) :
    t.extend = { t with matching := (cells n).foldl (takeCell t.grid) t.matching } ∧
    Greedy t.grid t.matching t.extend.matching ∧
    (∀ s, Greedy t.grid t.matching s → s = t.extend.matching) ∧
    (∀ r c : Fin n, t.extend.matching.colOf.get r = some c.val →
      t.matching.colOf.get r = some c.val ∨ (t.grid r c == 0) = true) ∧
    ∀ r c, (t.grid r c == 0) = true → t.extend.matching.colOf.get r = none →
      t.extend.matching.rowOf.get c ≠ none := by
  have hgreedy : Greedy t.grid t.matching t.extend.matching := h.greedy_extend t.grid
  refine ⟨?_, hgreedy, fun s hs ↦ hs.unique hgreedy, fun r c hc ↦ ?_,
    fun r c hz hr ↦ hgreedy.maximal h hz hr⟩
  · rw [extend, extend_eq_foldl_cells]
  · cases hr : t.matching.colOf.get r with
    | some x => exact .inl ((hgreedy.kept r x hr).symm.trans hc)
    | none => exact .inr (hgreedy.zero hr hc)

/-- The second row holds the first column on no zero; the third row finds its only zero taken. -/
def preset : Tableau ℤ 4 :=
  { ofGrid (.ofLists [[0, 5, 0, 0], [2, 0, 3, 1], [4, 6, 0, 7], [0, 1, 0, 0]] (by decide)) with
    matching := Matching.empty.link 1 0 }

theorem extend_greedy_preset :
    Greedy preset.grid preset.matching preset.extend.matching ∧
      preset.extend.matching.colOf = #v[some 2, some 0, none, some 3] := by
  have hconsistent : preset.matching.Consistent :=
    consistent_empty.link (r := (1 : Fin 4)) (c := (0 : Fin 4)) (by decide) (by decide)
  exact ⟨(extend_greedy preset hconsistent).2.1, by decide⟩

end Tableau

end LinearAssignment
