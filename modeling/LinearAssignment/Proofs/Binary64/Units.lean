import LinearAssignment.Proofs.Binary64.Stored

/-!
Numbers as integers: how many times the least positive number they are.

An infinite number counts as the power of two beyond the finite ones. Comparisons compare these
integers, and sums and differences of finite numbers are those of the integers, rounded.
-/

namespace LinearAssignment.Binary64

open Float.Model Float.Model.UnpackedFloat

/-- What an infinite number counts as, `2 ^ 1024`. -/
@[irreducible] def bound : ℕ := 2 ^ 2098

theorem two_pow_le_bound {k : ℕ} (h : k ≤ 2098) : 2 ^ k ≤ bound := by
  unfold bound
  generalize 2098 = t at h ⊢
  exact Nat.pow_le_pow_right (by decide) h

theorem bound_le_two_pow {k : ℕ} (h : 2098 ≤ k) : bound ≤ 2 ^ k := by
  unfold bound
  generalize 2098 = t at h ⊢
  exact Nat.pow_le_pow_right (by decide) h

theorem bound_pos : 0 < bound := (Nat.two_pow_pos 0).trans_le (two_pow_le_bound (Nat.zero_le _))

/-- A multiple of the least positive number. -/
def units : UnpackedFloat → ℤ
  | .zero _ | .notANumber => 0
  | .finite s m e _ => s.apply (multiple m e)
  | .infinity s => s.apply bound

theorem multiple_lt_bound {m : ℕ} (hm : m < 2 ^ 53) {e : ℤ} (he : e ≤ 971) :
    multiple m e < bound := by
  calc multiple m e < 2 ^ 53 * 2 ^ (e + 1074).toNat :=
        Nat.mul_lt_mul_of_pos_right hm (Nat.two_pow_pos _)
    _ = 2 ^ (53 + (e + 1074).toNat) := (pow_add ..).symm
    _ ≤ bound := two_pow_le_bound (by omega)

theorem bound_le_multiple {m : ℕ} (hm : 2 ^ 52 ≤ m) {e : ℤ} (he : 971 < e) :
    bound ≤ multiple m e := by
  calc bound ≤ 2 ^ (52 + (e + 1074).toNat) := bound_le_two_pow (by omega)
    _ = 2 ^ 52 * 2 ^ (e + 1074).toNat := pow_add ..
    _ ≤ multiple m e := Nat.mul_le_mul_right _ hm

theorem apply_natCast_lt {s : Sign} {k l : ℕ} (h : k < l) :
    -(l : ℤ) < s.apply k ∧ s.apply (k : ℤ) < l := by
  cases s <;> simp only [Sign.apply] <;> omega

/-- The integers of finite numbers lie between those of the infinite ones. -/
theorem isFinite_iff {f : UnpackedFloat} (hc : Canonical f) (hr : InRange f)
    (hn : f ≠ .notANumber) : f.isFinite = true ↔ -(bound : ℤ) < units f ∧ units f < bound := by
  have hb := bound_pos
  cases f with
  | notANumber => exact absurd rfl hn
  | infinity s => cases s <;> simp [UnpackedFloat.isFinite, units, Sign.apply]
  | zero s => simp [UnpackedFloat.isFinite, units, hb]
  | finite s m e hm =>
    simpa [UnpackedFloat.isFinite, units] using
      apply_natCast_lt (s := s) (multiple_lt_bound hc.1 hr)

theorem multiple_lt_of_lt {s s' : Sign} {m m' : ℕ} {e e' : ℤ} {hm : 0 < m} {hm' : 0 < m'}
    (hc : Canonical (.finite s m e hm)) (hc' : Canonical (.finite s' m' e' hm')) (h : e < e') :
    multiple m e < multiple m' e' := by
  obtain ⟨hlt, hle, -⟩ := hc
  obtain ⟨-, -, hn⟩ := hc'
  calc multiple m e < 2 ^ 53 * 2 ^ (e + 1074).toNat :=
        Nat.mul_lt_mul_of_pos_right hlt (Nat.two_pow_pos _)
    _ = 2 ^ (53 + (e + 1074).toNat) := (pow_add ..).symm
    _ ≤ 2 ^ (52 + (e' + 1074).toNat) := Nat.pow_le_pow_right (by decide) (by omega)
    _ = 2 ^ 52 * 2 ^ (e' + 1074).toNat := pow_add ..
    _ ≤ multiple m' e' := Nat.mul_le_mul_right _ (by omega)

theorem compare_multiple {s s' : Sign} {m m' : ℕ} {e e' : ℤ} {hm : 0 < m} {hm' : 0 < m'}
    (hc : Canonical (.finite s m e hm)) (hc' : Canonical (.finite s' m' e' hm')) :
    (compare e e').then (compare m m') = compare (multiple m e : ℤ) (multiple m' e') := by
  rcases lt_trichotomy e e' with h | rfl | h
  · have hlt := Int.ofNat_lt.mpr (multiple_lt_of_lt hc hc' h)
    rw [compare_lt_iff_lt.mpr h, compare_lt_iff_lt.mpr hlt]
    rfl
  · have hmul {k l : ℕ} (h : k < l) : (multiple k e : ℤ) < multiple l e :=
      Int.ofNat_lt.mpr (Nat.mul_lt_mul_of_pos_right h (Nat.two_pow_pos _))
    rw [compare_eq_iff_eq.mpr rfl]
    change compare m m' = _
    rcases lt_trichotomy m m' with h | rfl | h
    · rw [compare_lt_iff_lt.mpr h, compare_lt_iff_lt.mpr (hmul h)]
    · rw [compare_eq_iff_eq.mpr rfl, compare_eq_iff_eq.mpr rfl]
    · rw [compare_gt_iff_gt.mpr h, compare_gt_iff_gt.mpr (hmul h)]
  · have hlt := Int.ofNat_lt.mpr (multiple_lt_of_lt hc' hc h)
    rw [compare_gt_iff_gt.mpr h, compare_gt_iff_gt.mpr hlt]
    rfl

theorem compare_neg_neg (a b : ℤ) : compare (-a) (-b) = (compare a b).swap := by
  rcases lt_trichotomy a b with h | rfl | h
  · rw [compare_lt_iff_lt.mpr h, compare_gt_iff_gt.mpr (neg_lt_neg h)]
    rfl
  · rw [compare_eq_iff_eq.mpr rfl, compare_eq_iff_eq.mpr rfl]
    rfl
  · rw [compare_gt_iff_gt.mpr h, compare_lt_iff_lt.mpr (neg_lt_neg h)]
    rfl

theorem some_lt_of_lt {a b : ℤ} (h : a < b) : some Ordering.lt = some (compare a b) :=
  congrArg some (compare_lt_iff_lt.mpr h).symm

theorem some_gt_of_lt {a b : ℤ} (h : b < a) : some Ordering.gt = some (compare a b) :=
  congrArg some (compare_gt_iff_gt.mpr h).symm

theorem some_eq_self (a : ℤ) : some Ordering.eq = some (compare a a) :=
  congrArg some (compare_eq_iff_eq.mpr rfl).symm

theorem eq_infinity {f : UnpackedFloat} (hn : f ≠ .notANumber) (h : ¬f.isFinite = true) :
    ∃ s, f = .infinity s := by
  cases f with
  | notANumber => exact absurd rfl hn
  | infinity s => exact ⟨s, rfl⟩
  | zero s => exact absurd rfl h
  | finite s m e hm => exact absurd rfl h

theorem compare_infinity_left (s : Sign) {f : UnpackedFloat} (hc : Canonical f) (hr : InRange f)
    (hn : f ≠ .notANumber) (h : f.isFinite = true) :
    (UnpackedFloat.infinity s).compare f = some (compare (units (.infinity s)) (units f)) := by
  obtain ⟨hlow, hhigh⟩ := (isFinite_iff hc hr hn).mp h
  cases f with
  | notANumber => cases h
  | infinity s' => cases h
  | zero s' =>
    cases s
    · exact some_lt_of_lt hlow
    · exact some_gt_of_lt hhigh
  | finite s' m e hm =>
    cases s
    · exact some_lt_of_lt hlow
    · exact some_gt_of_lt hhigh

theorem compare_infinity_right (s : Sign) {f : UnpackedFloat} (hc : Canonical f) (hr : InRange f)
    (hn : f ≠ .notANumber) (h : f.isFinite = true) :
    f.compare (.infinity s) = some (compare (units f) (units (.infinity s))) := by
  obtain ⟨hlow, hhigh⟩ := (isFinite_iff hc hr hn).mp h
  cases f with
  | notANumber => cases h
  | infinity s' => cases h
  | zero s' =>
    cases s
    · exact some_gt_of_lt hlow
    · exact some_lt_of_lt hhigh
  | finite s' m e hm =>
    cases s
    · exact some_gt_of_lt hlow
    · exact some_lt_of_lt hhigh

theorem compare_of_isFinite {f g : UnpackedFloat} (hf : Canonical f) (hg : Canonical g)
    (h : f.isFinite = true) (h' : g.isFinite = true) :
    f.compare g = some (compare (units f) (units g)) := by
  cases f with
  | notANumber => cases h
  | infinity s => cases h
  | zero s =>
    cases g with
    | notANumber => cases h'
    | infinity s' => cases h'
    | zero s' => exact some_eq_self 0
    | finite s' m' e' hm' =>
      have hpos := multiple_pos hm' e'
      cases s'
      · exact some_gt_of_lt (by simp only [units, Sign.apply]; omega)
      · exact some_lt_of_lt (by simp only [units, Sign.apply]; omega)
  | finite s m e hm =>
    have hpos := multiple_pos hm e
    cases g with
    | notANumber => cases h'
    | infinity s' => cases h'
    | zero s' =>
      cases s
      · exact some_lt_of_lt (by simp only [units, Sign.apply]; omega)
      · exact some_gt_of_lt (by simp only [units, Sign.apply]; omega)
    | finite s' m' e' hm' =>
      have hpos' := multiple_pos hm' e'
      cases s <;> cases s'
      · exact congrArg some ((congrArg Ordering.swap (compare_multiple hf hg)).trans
          (compare_neg_neg _ _).symm)
      · exact some_lt_of_lt (by simp only [units, Sign.apply]; omega)
      · exact some_gt_of_lt (by simp only [units, Sign.apply]; omega)
      · exact congrArg some (compare_multiple hf hg)

/-- Numbers are compared by their integers. -/
theorem compare_eq {f g : UnpackedFloat} (hf : Canonical f) (hf' : InRange f)
    (hg : Canonical g) (hg' : InRange g) (hn : f ≠ .notANumber) (hn' : g ≠ .notANumber) :
    f.compare g = some (compare (units f) (units g)) := by
  by_cases h : f.isFinite = true <;> by_cases h' : g.isFinite = true
  · exact compare_of_isFinite hf hg h h'
  · obtain ⟨s, rfl⟩ := eq_infinity hn' h'
    exact compare_infinity_right s hf hf' hn h
  · obtain ⟨s, rfl⟩ := eq_infinity hn h
    exact compare_infinity_left s hg hg' hn' h'
  · obtain ⟨s, rfl⟩ := eq_infinity hn h
    obtain ⟨s', rfl⟩ := eq_infinity hn' h'
    have hb := bound_pos
    cases s <;> cases s'
    · exact some_eq_self _
    · exact some_lt_of_lt (by simp only [units, Sign.apply]; omega)
    · exact some_gt_of_lt (by simp only [units, Sign.apply]; omega)
    · exact some_eq_self _

end LinearAssignment.Binary64
