import LinearAssignment.Matching.Greedy
import Mathlib.Tactic.Common

/-!
Greedy extension of a matching: the tables still agree, and every new pair is a zero.
-/

namespace LinearAssignment.Matching

variable {α : Type} {n : ℕ} [Cost α]

theorem of_freeZero? {g : Grid α n} {m : Matching n} {r c : Fin n}
    (h : freeZero? g m r = some c) : (g r c == 0) = true ∧ m.rowOf.get c = none := by
  simpa [freeZero?] using List.find?_some h

/-- What holds of a matching holds of its extension along any rows if linking a free row to a free
column by a zero keeps it. -/
theorem foldl_extendRow_induction {g : Grid α n} {P : Matching n → Prop}
    (link : ∀ (m : Matching n) (r c : Fin n), P m → m.colOf.get r = none → m.rowOf.get c = none →
      (g r c == 0) = true → P (m.link r c)) {m : Matching n} (hm : P m) (rs : List (Fin n)) :
    P (rs.foldl (extendRow g) m) := by
  have hrow (m : Matching n) (r : Fin n) (hm : P m) : P (extendRow g m r) := by
    cases hr : m.colOf.get r with
    | some c => rwa [extendRow_of_isSome (by simp [hr])]
    | none =>
      cases hc : freeZero? g m r with
      | none => rwa [extendRow_of_freeZero?_eq_none hc]
      | some c =>
        rw [extendRow_of_freeZero? hr hc]
        obtain ⟨hz, hfree⟩ := of_freeZero? hc
        exact link m r c hm hr hfree hz
  induction rs generalizing m with
  | nil => exact hm
  | cons r rs ih => exact ih (hrow m r hm)

theorem extend_induction {g : Grid α n} {P : Matching n → Prop}
    (link : ∀ (m : Matching n) (r c : Fin n), P m → m.colOf.get r = none → m.rowOf.get c = none →
      (g r c == 0) = true → P (m.link r c)) {m : Matching n} (hm : P m) : P (m.extend g) :=
  foldl_extendRow_induction link hm _

theorem colOf_foldl_extendRow_of_some {g : Grid α n} {m : Matching n} {rs : List (Fin n)}
    {r : Fin n} {x : ℕ} (h : m.colOf.get r = some x) :
    (rs.foldl (extendRow g) m).colOf.get r = some x := by
  refine foldl_extendRow_induction (P := fun s ↦ s.colOf.get r = some x)
    (fun s i c hs hi _ _ ↦ ?_) h rs
  have hne : i ≠ r := fun heq ↦ by simp [← heq, hi] at hs
  rwa [colOf_link, if_neg (Fin.val_ne_of_ne hne)]

theorem rowOf_foldl_extendRow_of_some {g : Grid α n} {m : Matching n} {rs : List (Fin n)}
    {c : Fin n} {x : ℕ} (h : m.rowOf.get c = some x) :
    (rs.foldl (extendRow g) m).rowOf.get c = some x := by
  refine foldl_extendRow_induction (P := fun s ↦ s.rowOf.get c = some x)
    (fun s i d hs _ hd _ ↦ ?_) h rs
  have hne : d ≠ c := fun heq ↦ by simp [← heq, hd] at hs
  rwa [rowOf_link, if_neg (Fin.val_ne_of_ne hne)]

theorem free_of_free_extend (g : Grid α n) (m : Matching n) :
    (∀ r, (m.extend g).colOf.get r = none → m.colOf.get r = none) ∧
      ∀ c, (m.extend g).rowOf.get c = none → m.rowOf.get c = none := by
  refine ⟨fun r hr ↦ Option.eq_none_iff_forall_ne_some.mpr fun x hx ↦ ?_,
    fun c hc ↦ Option.eq_none_iff_forall_ne_some.mpr fun x hx ↦ ?_⟩
  · simp [extend, colOf_foldl_extendRow_of_some hx] at hr
  · simp [extend, rowOf_foldl_extendRow_of_some hx] at hc

theorem Consistent.link {m : Matching n} (h : m.Consistent) {r c : Fin n}
    (hr : m.colOf.get r = none) (hc : m.rowOf.get c = none) : (m.link r c).Consistent where
  col_lt i j hj := by
    rw [colOf_link] at hj
    split_ifs at hj
    · exact Option.some.inj hj ▸ c.isLt
    · exact h.col_lt i j hj
  row_lt j i hi := by
    rw [rowOf_link] at hi
    split_ifs at hi
    · exact Option.some.inj hi ▸ r.isLt
    · exact h.row_lt j i hi
  agree i j := by
    rw [colOf_link, rowOf_link]
    by_cases hi : r = i <;> by_cases hj : c = j
    · simp [hi, hj]
    · subst hi
      simp [Fin.val_inj, hj, ← h.agree, hr]
    · subst hj
      simp [Fin.val_inj, hi, h.agree, hc]
    · simp [Fin.val_inj, hi, hj, h.agree]

theorem Consistent.extend {g : Grid α n} {m : Matching n} (h : m.Consistent) :
    (m.extend g).Consistent :=
  extend_induction (P := Consistent) (fun _ _ _ hm hr hc _ ↦ hm.link hr hc) h

theorem zero_of_colOf_extend {g : Grid α n} {m : Matching n}
    (h : ∀ r c : Fin n, m.colOf.get r = some c.val → (g r c == 0) = true) (r c : Fin n)
    (hc : (m.extend g).colOf.get r = some c.val) : (g r c == 0) = true := by
  refine extend_induction (g := g)
    (P := fun m ↦ ∀ r c : Fin n, m.colOf.get r = some c.val → (g r c == 0) = true)
    (fun m i j hm _ _ hz r c hc ↦ ?_) h r c hc
  rw [colOf_link] at hc
  split_ifs at hc with hi
  · rwa [← Fin.ext hi, ← Fin.ext (Option.some.inj hc)]
  · exact hm r c hc

end LinearAssignment.Matching
