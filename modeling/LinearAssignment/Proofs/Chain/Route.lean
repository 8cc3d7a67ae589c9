import LinearAssignment.Proofs.Matching.Flip

/-!
Routes: the links that follow a column.

A route ends in an unmatched column, or in a matched row without a mark. There is at most one route
from a column, and so a route that ends never comes back to a column.
-/

namespace LinearAssignment.Chain

variable {n : ℕ}

/-- The route from a column, and the unmatched column in which it ends, if it does. -/
inductive Route (m : Matching n) (marks : Vector (Option ℕ) n) :
    Fin n → Chain → Option (Fin n) → Prop
  | free {c : Fin n} (h : m.rowOf.get c = none) : Route m marks c [] (some c)
  | stuck {c r : Fin n} (h : m.rowOf.get c = some r.val) (hr : marks.get r = none) :
      Route m marks c [.leave r c] none
  | step {c r d : Fin n} {rest : Chain} {e : Option (Fin n)} (h : m.rowOf.get c = some r.val)
      (hr : marks.get r = some d.val) (hd : Route m marks d rest e) :
      Route m marks c (.leave r c :: .enter r d :: rest) e

namespace Route

variable {m : Matching n} {marks : Vector (Option ℕ) n} {c e : Fin n} {rest : Chain}
  {o : Option (Fin n)}

theorem beyond_eq (h : Route m marks c rest o) {steps : ℕ} (hs : rest.length < 2 * steps) :
    beyond m marks steps c = .ok rest := by
  have hslot {β : Type} (t : Vector β n) (i : Fin n) : slot t i = .ok (t.get i) := slot_of_lt i.isLt
  induction h generalizing steps with
  | free h =>
    obtain ⟨steps, rfl⟩ := Nat.exists_eq_succ_of_ne_zero (n := steps) (by rintro rfl; simp at hs)
    simp only [beyond, hslot, h]
  | stuck h hr =>
    obtain ⟨steps, rfl⟩ := Nat.exists_eq_succ_of_ne_zero (n := steps) (by rintro rfl; simp at hs)
    simp only [beyond, hslot, h, hr]
  | step h hr hd ih =>
    obtain ⟨steps, rfl⟩ := Nat.exists_eq_succ_of_ne_zero (n := steps) (by rintro rfl; simp at hs)
    simp only [List.length_cons] at hs
    simp only [beyond, hslot, h, hr, ih (by omega : _ < 2 * steps)]
    rfl

theorem unique (h : Route m marks c rest o) {rest' : Chain} {o' : Option (Fin n)}
    (h' : Route m marks c rest' o') : rest = rest' ∧ o = o' := by
  induction h generalizing rest' o' with
  | free h =>
    cases h' with
    | free => exact ⟨rfl, rfl⟩
    | stuck h' => simp [h] at h'
    | step h' => simp [h] at h'
  | stuck h hr =>
    cases h' with
    | free h' => simp [h] at h'
    | stuck h' hr' =>
      obtain rfl := Fin.ext (Option.some.inj (h.symm.trans h'))
      exact ⟨rfl, rfl⟩
    | step h' hr' =>
      obtain rfl := Fin.ext (Option.some.inj (h.symm.trans h'))
      simp [hr] at hr'
  | step h hr hd ih =>
    cases h' with
    | free h' => simp [h] at h'
    | stuck h' hr' =>
      obtain rfl := Fin.ext (Option.some.inj (h.symm.trans h'))
      simp [hr] at hr'
    | step h' hr' hd' =>
      obtain rfl := Fin.ext (Option.some.inj (h.symm.trans h'))
      obtain rfl := Fin.ext (Option.some.inj (hr.symm.trans hr'))
      obtain ⟨rfl, rfl⟩ := ih hd'
      exact ⟨rfl, rfl⟩

/-- More marks do not change a route to an unmatched column. -/
theorem mono (h : Route m marks c rest (some e)) {marks' : Vector (Option ℕ) n}
    (hm : ∀ r d, marks.get r = some d → marks'.get r = some d) :
    Route m marks' c rest (some e) := by
  generalize ho : some e = o at h ⊢
  induction h with
  | free h => exact .free h
  | stuck => cases ho
  | step h hr _ ih => exact .step h (hm _ _ hr) (ih ho)

/-- What enters on a route is the mark of a row that is matched to a column before. From its own
column a shorter route leads on to the same end. -/
theorem of_enter (h : Route m marks c rest o) {i j : ℕ} (he : Link.enter i j ∈ rest) :
    ∃ r d b : Fin n, i = r ∧ j = d ∧ marks.get r = some d.val ∧ m.rowOf.get b = some r.val ∧
      Link.leave r b ∈ rest ∧ ∃ later, Route m marks d later o ∧ later.length < rest.length ∧
        ∀ l ∈ later, l ∈ rest := by
  induction h with
  | free => cases he
  | stuck => simp at he
  | @step c r d rest o h hr hd ih =>
    simp only [List.mem_cons, Link.enter.injEq, reduceCtorEq, false_or] at he
    rcases he with ⟨rfl, rfl⟩ | he
    · exact ⟨r, d, c, rfl, rfl, hr, h, List.mem_cons_self, rest, hd,
        by simp only [List.length_cons]; omega, fun l hl ↦ by simp [hl]⟩
    · obtain ⟨r', d', b, rfl, rfl, hm, hb, hl, later, hlater, hlen, hsub⟩ := ih he
      exact ⟨r', d', b, rfl, rfl, hm, hb, by simp [hl], later, hlater,
        by simp only [List.length_cons]; omega, fun l hl ↦ by simp [hsub l hl]⟩

theorem leave_mem (h : Route m marks c rest o) {i : ℕ} (hi : m.rowOf.get c = some i) :
    Link.leave i c ∈ rest := by
  cases h with
  | free h => simp [h] at hi
  | stuck h => simp [Option.some.inj (hi.symm.trans h)]
  | step h => simp [Option.some.inj (hi.symm.trans h)]

theorem eq_or_isSome (h : Route m marks c rest o) :
    o = some c ∨ (m.rowOf.get c).isSome = true := by
  cases h with
  | free => exact .inl rfl
  | stuck h => simp [h]
  | step h => simp [h]

theorem end_free (h : Route m marks c rest (some e)) : m.rowOf.get e = none := by
  generalize ho : some e = o at h
  induction h with
  | free h => exact Option.some.inj ho ▸ h
  | stuck => cases ho
  | step _ _ _ ih => exact ih ho

/-- A route does not come back to its column. -/
theorem not_mem_enter (h : Route m marks c rest o) (i : ℕ) : Link.enter i c ∉ rest := by
  intro he
  obtain ⟨r, d, b, -, hd, -, -, -, later, hlater, hlen, -⟩ := h.of_enter he
  obtain rfl := Fin.ext hd
  exact Nat.ne_of_lt hlen (congrArg List.length (h.unique hlater).1.symm)

theorem row_unique (h : Route m marks c rest o) {i i' j : ℕ} (he : Link.enter i j ∈ rest)
    (he' : Link.enter i' j ∈ rest) : i = i' := by
  induction h with
  | free => cases he
  | stuck => simp at he
  | step h hr hd ih =>
    simp only [List.mem_cons, Link.enter.injEq, reduceCtorEq, false_or] at he he'
    rcases he with ⟨rfl, rfl⟩ | he <;> rcases he' with ⟨rfl, hj⟩ | he'
    · rfl
    · exact absurd he' (hd.not_mem_enter _)
    · exact absurd (hj ▸ he) (hd.not_mem_enter _)
    · exact ih he he'

/-- A row whose pair leaves enters with its mark. It has none only where the route gets stuck. -/
theorem of_leave (h : Route m marks c rest o) {i j : ℕ} (hl : Link.leave i j ∈ rest) :
    ∃ r d : Fin n, i = r ∧ j = d ∧ m.rowOf.get d = some r.val ∧
      ((∃ k, marks.get r = some k ∧ Link.enter r k ∈ rest) ∨ marks.get r = none ∧ o = none) := by
  induction h with
  | free => cases hl
  | @stuck c r h hr =>
    cases List.mem_singleton.mp hl
    exact ⟨r, c, rfl, rfl, h, .inr ⟨hr, rfl⟩⟩
  | @step c r d rest o h hr hd ih =>
    simp only [List.mem_cons, Link.leave.injEq, reduceCtorEq, false_or] at hl
    rcases hl with ⟨rfl, rfl⟩ | hl
    · exact ⟨r, c, rfl, rfl, h, .inl ⟨d, hr, by simp⟩⟩
    · obtain ⟨r', d', rfl, rfl, hd', hcases⟩ := ih hl
      refine ⟨r', d', rfl, rfl, hd', hcases.imp_left ?_⟩
      rintro ⟨k, hk, hmem⟩
      exact ⟨k, hk, by simp [hmem]⟩

theorem enter_of_leave_col (h : Route m marks c rest o) {i j : ℕ} (hl : Link.leave i j ∈ rest)
    (r : ℕ) : ∃ k, Link.enter k j ∈ Link.enter r c :: rest := by
  induction h generalizing r with
  | free => cases hl
  | stuck =>
    cases List.mem_singleton.mp hl
    exact ⟨r, List.mem_cons_self⟩
  | @step c r' d rest o h hr hd ih =>
    simp only [List.mem_cons, Link.leave.injEq, reduceCtorEq, false_or] at hl
    rcases hl with ⟨rfl, rfl⟩ | hl
    · exact ⟨r, List.mem_cons_self⟩
    · obtain ⟨k, hk⟩ := ih hl r'
      exact ⟨k, List.mem_cons_of_mem _ (List.mem_cons_of_mem _ hk)⟩

theorem enter_end (h : Route m marks c rest (some e)) (r : ℕ) :
    ∃ k, Link.enter k e ∈ Link.enter r c :: rest := by
  generalize ho : some e = o at h
  induction h generalizing r with
  | free => exact ⟨r, Option.some.inj ho ▸ List.mem_cons_self⟩
  | stuck => cases ho
  | @step c r' d rest o h hr hd ih =>
    obtain ⟨k, hk⟩ := ih r' ho
    exact ⟨k, List.mem_cons_of_mem _ (List.mem_cons_of_mem _ hk)⟩

end Route

end LinearAssignment.Chain
