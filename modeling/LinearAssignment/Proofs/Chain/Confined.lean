import LinearAssignment.Proofs.Chain.Walk

/-!
Chains within the grid. Where all partners and marks are positions of the grid, the links that
follow a column come to an end after at most `2 * n` of them, or to none at all.
-/

namespace LinearAssignment

namespace Matching

variable {n : ℕ} {m : Matching n}

/-- All partners are positions of the grid. The tables need not agree. -/
structure Confined (m : Matching n) : Prop where
  col_lt (r : Fin n) (c : ℕ) (h : m.colOf.get r = some c) : c < n
  row_lt (c : Fin n) (r : ℕ) (h : m.rowOf.get c = some r) : r < n

namespace Confined

theorem link (h : m.Confined) {r c : ℕ} (hr : r < n) (hc : c < n) : (m.link r c).Confined where
  col_lt i j hj := by
    rw [colOf_link] at hj
    split_ifs at hj
    · exact Option.some.inj hj ▸ hc
    · exact h.col_lt i j hj
  row_lt j i hi := by
    rw [rowOf_link] at hi
    split_ifs at hi
    · exact Option.some.inj hi ▸ hr
    · exact h.row_lt j i hi

theorem unlink (h : m.Confined) (r c : ℕ) : (m.unlink r c).Confined where
  col_lt i j hj := by
    rw [colOf_unlink] at hj
    split_ifs at hj
    exact h.col_lt i j hj
  row_lt j i hi := by
    rw [rowOf_unlink] at hi
    split_ifs at hi
    exact h.row_lt j i hi

theorem foldl_release (h : m.Confined) (chain : Chain) : (chain.foldl release m).Confined := by
  induction chain generalizing m with
  | nil => exact h
  | cons l chain ih =>
    cases l with
    | enter r c => exact ih h
    | leave r c => exact ih (h.unlink r c)

theorem foldl_adopt (h : m.Confined) {chain : Chain}
    (hchain : ∀ r c, Link.enter r c ∈ chain → r < n ∧ c < n) :
    (chain.foldl adopt m).Confined := by
  induction chain generalizing m with
  | nil => exact h
  | cons l chain ih =>
    have hrest : ∀ r c, Link.enter r c ∈ chain → r < n ∧ c < n := by
      intro r c hl
      exact hchain r c (List.mem_cons_of_mem _ hl)
    cases l with
    | enter r c =>
      obtain ⟨hr, hc⟩ := hchain r c List.mem_cons_self
      exact ih (h.link hr hc) hrest
    | leave r c => exact ih h hrest

theorem flip (h : m.Confined) {chain : Chain}
    (hchain : ∀ r c, Link.enter r c ∈ chain → r < n ∧ c < n) : (m.flip chain).Confined :=
  (h.foldl_release chain).foldl_adopt hchain

end Confined

end Matching

namespace Chain

variable {n : ℕ} {m : Matching n} {marks : Vector (Option ℕ) n} {c : Fin n}

open Classical in
/-- The columns that pairs of a chain leave. -/
noncomputable def leftCols (n : ℕ) (chain : Chain) : Finset (Fin n) :=
  {c | ∃ r, Link.leave r c.val ∈ chain}

theorem mem_leftCols {chain : Chain} : c ∈ leftCols n chain ↔ ∃ r, Link.leave r c.val ∈ chain := by
  simp [leftCols]

theorem Route.length_le_card {rest : Chain} {o : Option (Fin n)} (h : Route m marks c rest o) :
    rest.length ≤ 2 * (leftCols n rest).card := by
  induction h with
  | free => exact Nat.zero_le _
  | @stuck c r h hr =>
    have hpos := Finset.card_pos.mpr ⟨c, mem_leftCols.mpr ⟨r.val, List.mem_singleton_self _⟩⟩
    rw [List.length_singleton]
    omega
  | @step c r d rest o h hr hd ih =>
    -- The route does not leave its first column a second time.
    have hnew : c ∉ leftCols n rest := by
      intro hc
      obtain ⟨i, hl⟩ := mem_leftCols.mp hc
      obtain ⟨k, hk⟩ := hd.enter_of_leave_col hl r
      exact (Route.step h hr hd).not_mem_enter k (List.mem_cons_of_mem _ hk)
    have hsub : insert c (leftCols n rest) ⊆ leftCols n (.leave r c :: .enter r d :: rest) := by
      intro j hj
      rw [mem_leftCols]
      rcases Finset.mem_insert.mp hj with rfl | hj
      · exact ⟨r, List.mem_cons_self⟩
      · obtain ⟨i, hl⟩ := mem_leftCols.mp hj
        exact ⟨i, List.mem_cons_of_mem _ (List.mem_cons_of_mem _ hl)⟩
    have hcard := Finset.card_le_card hsub
    rw [Finset.card_insert_of_notMem hnew] at hcard
    simp only [List.length_cons]
    omega

theorem Route.length_le {rest : Chain} {o : Option (Fin n)} (h : Route m marks c rest o) :
    rest.length ≤ 2 * n := by
  have hcard : (leftCols n rest).card ≤ n := (Finset.card_le_univ _).trans_eq (Fintype.card_fin n)
  have hlen := h.length_le_card
  omega

theorem exists_route_or_circular (hm : m.Confined)
    (hmarks : ∀ r c, marks.get r = some c → c < n) (steps : ℕ) (c : Fin n) :
    (∃ rest o, Route m marks c rest o) ∨ beyond m marks steps c = .error .circularChain := by
  refine (exists_route_or_walk hm.row_lt hmarks steps c).imp_right ?_
  rintro ⟨cs, rfl, hwalk⟩
  exact beyond_of_isChain hwalk

end Chain

end LinearAssignment
