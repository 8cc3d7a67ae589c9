import LinearAssignment.Proofs.Chain.Augmenting
import Mathlib.Data.List.Nodup

/-!
Alternating chains. The chain of an augmentation goes through cells in turn: each cell enters, and
between two cells the pair leaves that joins the column of the first to the row of the second. No
row and no column is met twice.
-/

namespace LinearAssignment.Chain

variable {n : ℕ}

/-- The chain through a cell and those after it. -/
def through (p : Cell n) : List (Cell n) → Chain
  | [] => [.enter p.1 p.2]
  | q :: qs => .enter p.1 p.2 :: .leave q.1 p.2 :: through q qs

theorem length_through (p : Cell n) (qs : List (Cell n)) :
    (through p qs).length = 2 * qs.length + 1 := by
  induction qs generalizing p with
  | nil => rfl
  | cons q qs ih =>
    simp only [through, List.length_cons, ih]
    omega

theorem enter_mem_through {p q : Cell n} {qs : List (Cell n)} (hq : q ∈ p :: qs) :
    Link.enter q.1 q.2 ∈ through p qs := by
  induction qs generalizing p with
  | nil =>
    obtain rfl := List.mem_singleton.mp hq
    exact List.mem_cons_self
  | cons u qs ih =>
    rcases List.mem_cons.mp hq with rfl | hq
    · exact List.mem_cons_self
    · exact List.mem_cons_of_mem _ (List.mem_cons_of_mem _ (ih hq))

/-- The column of one cell is matched to the row of another. -/
def Joined (m : Matching n) (p q : Cell n) : Prop :=
  m.colOf.get q.1 = some p.2.val ∧ m.rowOf.get p.2 = some q.1.val

/-- The walk from a cell through others to an unmatched column: each column on the way is joined to
the next row, whose mark is the next cell. No row and no column is met twice. -/
structure Alternating (m : Matching n) (marks : Vector (Option ℕ) n) (p : Cell n)
    (qs : List (Cell n)) : Prop where
  startingAt_eq : startingAt m marks p.1 p.2 = .ok (through p qs)
  start_free : m.colOf.get p.1 = none
  joined : (p :: qs).IsChain (Joined m)
  marked (q : Cell n) (h : q ∈ p :: qs) : marks.get q.1 = some q.2.val
  end_free : m.rowOf.get ((p :: qs).getLast (List.cons_ne_nil p qs)).2 = none
  rows_nodup : ((p :: qs).map Prod.fst).Nodup
  cols_nodup : ((p :: qs).map Prod.snd).Nodup

variable {m : Matching n} {marks : Vector (Option ℕ) n} {r c e : Fin n} {rest : Chain}

/-- A route to an unmatched column goes through cells, the marks of the rows on the way. As it never
comes back to a column, the cells are in different columns. -/
theorem Route.exists_through (h : Route m marks c rest (some e)) (hm : m.Consistent) (r : Fin n) :
    ∃ qs, .enter r c :: rest = through (r, c) qs ∧ ((r, c) :: qs).IsChain (Joined m) ∧
      (∀ q ∈ qs, marks.get q.1 = some q.2.val) ∧ (((r, c) :: qs).map Prod.snd).Nodup ∧
        (((r, c) :: qs).getLast (List.cons_ne_nil _ _)).2 = e := by
  generalize ho : some e = o at h
  induction h generalizing r with
  | free => exact ⟨[], rfl, .singleton _, nofun, List.nodup_singleton _, (Option.some.inj ho).symm⟩
  | stuck => cases ho
  | @step c i d rest o hc hi hd ih =>
    obtain ⟨qs, hthrough, hjoined, hmarked, hcols, hend⟩ := ih i ho
    refine ⟨(i, d) :: qs, ?_, ?_, ?_, ?_, ?_⟩
    · rw [through, ← hthrough]
    · exact hjoined.cons_cons ⟨(hm.agree i c).mpr hc, hc⟩
    · intro q hq
      rcases List.mem_cons.mp hq with rfl | hq
      · exact hi
      · exact hmarked q hq
    · rw [List.map_cons, List.nodup_cons]
      refine ⟨?_, hcols⟩
      intro hmem
      obtain ⟨q, hq, rfl⟩ := List.mem_map.mp hmem
      have henter := enter_mem_through hq
      rw [← hthrough] at henter
      exact (Route.step hc hi hd).not_mem_enter q.1 (List.mem_cons_of_mem _ henter)
    · rwa [List.getLast_cons (List.cons_ne_nil _ _)]

theorem Augmenting.exists_alternating (h : Augmenting m marks r c e rest) (hm : m.Consistent)
    (hr : marks.get r = some c.val) (hlen : rest.length ≤ 2 * n) :
    ∃ qs, .enter r c :: rest = through (r, c) qs ∧ Alternating m marks (r, c) qs := by
  obtain ⟨qs, hthrough, hjoined, hmarked, hcols, rfl⟩ := h.route.exists_through hm r
  have hmarks : ∀ q ∈ (r, c) :: qs, marks.get q.1 = some q.2.val := by
    intro q hq
    rcases List.mem_cons.mp hq with rfl | hq
    · exact hr
    · exact hmarked q hq
  refine ⟨qs, hthrough, ?_, h.free, hjoined, hmarks, h.route.end_free, ?_, hcols⟩
  · rw [← hthrough]
    exact h.startingAt_eq hlen
  · -- Cells of one row would be the same mark, and so in one column.
    refine List.Nodup.of_map marks.get ?_
    have hmap : (((r, c) :: qs).map Prod.fst).map marks.get =
        (((r, c) :: qs).map Prod.snd).map fun c ↦ some c.val := by
      rw [List.map_map, List.map_map]
      exact List.map_congr_left hmarks
    rw [hmap]
    exact hcols.map fun c d hcd ↦ Fin.ext (Option.some.inj hcd)

end LinearAssignment.Chain
