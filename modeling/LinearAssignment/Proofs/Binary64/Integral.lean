import LinearAssignment.Binary64
import LinearAssignment.Proofs.Cost.Binary64
import LinearAssignment.Proofs.Cost.Mirror

/-!
Integral binary64 numbers. Their sums and differences are exact as long as they are at most `2 ^ 53`
in magnitude, so calculation with them mirrors calculation with integers.
-/

namespace LinearAssignment.Binary64

open Float.Model Float.Model.UnpackedFloat

variable {x y : Float} {z w : ℤ}

/-- How many times the least positive number one is, `2 ^ 1074`. -/
@[irreducible] def whole : ℕ := multiple 1 0

theorem whole_pos : 0 < whole := by
  unfold whole
  exact multiple_pos one_pos 0

theorem exists_whole_eq : ∃ j ≤ 1074, whole = 2 ^ j := by
  refine ⟨(0 + 1074 : ℤ).toNat, by omega, ?_⟩
  unfold whole multiple
  rw [one_mul]

theorem multiple_add {e : ℤ} (he : -1074 ≤ e) (m k : ℕ) :
    multiple m (e + k) = m * 2 ^ k * multiple 1 e := by
  have hk : (e + k + 1074).toNat = k + (e + 1074).toNat := by omega
  rw [multiple, multiple, hk, pow_add, one_mul, mul_assoc]

theorem multiple_of_nonneg (m : ℕ) {q : ℤ} (h : 0 ≤ q) :
    multiple m q = m * 2 ^ q.toNat * whole := by
  have he := multiple_add (e := 0) (by omega) m q.toNat
  rw [zero_add, Int.toNat_of_nonneg h] at he
  rw [he]
  unfold whole
  rfl

theorem whole_eq {q : ℤ} (hq : -1074 ≤ q) (h : q ≤ 0) :
    whole = 2 ^ (-q).toNat * multiple 1 q := by
  have he := multiple_add hq 1 (-q).toNat
  rw [show q + ((-q).toNat : ℤ) = 0 by omega, one_mul] at he
  unfold whole
  exact he

theorem dvd_of_apply_eq {s : Sign} {m k : ℕ} (h : s.apply m = z * (k : ℤ)) : k ∣ m := by
  have hdvd : (k : ℤ) ∣ s.apply m := ⟨z, by rw [h, mul_comm]⟩
  cases s
  · exact Int.natCast_dvd_natCast.mp (Int.dvd_neg.mp hdvd)
  · exact Int.natCast_dvd_natCast.mp hdvd

/-- Of a number with a negative exponent the last bits of the mantissa are the fraction. -/
theorem apply_multiple_iff {s : Sign} {m : ℕ} {q : ℤ} (hq : -1074 ≤ q) (h : q ≤ 0) :
    s.apply (multiple m q) = z * whole ↔ s.apply m = z * (2 ^ (-q).toNat : ℕ) := by
  have hpos : (multiple 1 q : ℤ) ≠ 0 := Int.natCast_ne_zero.mpr (multiple_pos one_pos q).ne'
  have hm : (multiple m q : ℤ) = m * multiple 1 q := by
    have he := multiple_add hq m 0
    rw [Nat.cast_zero, add_zero, pow_zero, mul_one] at he
    exact_mod_cast he
  rw [hm, whole_eq hq h, Nat.cast_mul, apply_mul, ← mul_assoc, mul_left_inj' hpos]

/-- A number is integral when it is a multiple of one. -/
theorem integer?_eq_some : integer? x = some z ↔
    Cost.isFinite x = true ∧ level x = z * whole := by
  have hwhole : (whole : ℤ) ≠ 0 := Int.natCast_ne_zero.mpr whole_pos.ne'
  change _ ↔ x.toModel.unpack.isFinite = true ∧ _
  obtain ⟨hc, -⟩ := canonical_unpack x.toModel
  unfold integer? level
  cases hx : x.toModel.unpack with
  | notANumber => simp [UnpackedFloat.isFinite]
  | infinity s => simp [UnpackedFloat.isFinite]
  | zero s =>
    dsimp only [UnpackedFloat.isFinite, units]
    rw [and_iff_right rfl, Option.some_inj, eq_comm (b := z * (whole : ℤ)), mul_eq_zero,
      or_iff_left hwhole, eq_comm]
  | finite s m q hm =>
    rw [hx] at hc
    dsimp only [UnpackedFloat.isFinite, units]
    rw [and_iff_right rfl]
    split_ifs with h hmod
    · have hm : (multiple m q : ℤ) = m * (Nat.pow 2 q.toNat : ℕ) * whole := by
        exact_mod_cast multiple_of_nonneg m h
      rw [hm, apply_mul _ _ (whole : ℤ), mul_left_inj' hwhole, Option.some_inj]
    · have hpos : ((2 ^ (-q).toNat : ℕ) : ℤ) ≠ 0 :=
        Int.natCast_ne_zero.mpr (Nat.two_pow_pos _).ne'
      have hm : (m : ℤ) = m / (2 ^ (-q).toNat : ℕ) * (2 ^ (-q).toNat : ℕ) :=
        (Int.ediv_mul_cancel (Int.natCast_dvd_natCast.mpr (Nat.dvd_of_mod_eq_zero hmod))).symm
      rw [apply_multiple_iff hc.2.1 (by omega), Option.some_inj, hm, apply_mul, mul_left_inj' hpos,
        ← hm]
      rfl
    · rw [apply_multiple_iff hc.2.1 (by omega)]
      refine iff_of_false not_false fun he ↦ hmod ?_
      exact Nat.mod_eq_zero_of_dvd (dvd_of_apply_eq he)

theorem rounded_mul_two_pow_of_le {m : ℕ} (h : m ≤ 2 ^ 53) (k : ℕ) :
    rounded (m * 2 ^ k) = m * 2 ^ k := by
  rcases h.lt_or_eq with h | rfl
  · exact rounded_mul_two_pow h k
  · rw [← pow_add]
    exact rounded_two_pow _

theorem stored_natCast_mul_whole {k : ℕ} (h : k ≤ 2 ^ 53) :
    stored (k * whole : ℕ) = (k * whole : ℕ) ∧ k * whole < bound := by
  obtain ⟨j, hj, hwhole⟩ := exists_whole_eq
  have hlt : k * whole < bound := by
    calc k * whole ≤ 2 ^ 53 * 2 ^ j := hwhole ▸ Nat.mul_le_mul_right _ h
      _ = 2 ^ (53 + j) := (pow_add ..).symm
      _ < 2 ^ (54 + j) := Nat.pow_lt_pow_right (by decide) (by omega)
      _ ≤ bound := two_pow_le_bound (by omega)
  refine ⟨?_, hlt⟩
  rw [stored_natCast, hwhole, rounded_mul_two_pow_of_le h, ← hwhole, min_eq_left hlt.le]

/-- Integers of at most `2 ^ 53` are stored as they are. -/
theorem stored_mul_whole (h : |z| ≤ 2 ^ 53) :
    stored (z * whole) = z * whole ∧ -(bound : ℤ) < z * whole ∧ z * whole < bound := by
  obtain ⟨k, hk⟩ := z.eq_nat_or_neg
  have hle : k ≤ 2 ^ 53 := by
    rcases hk with rfl | rfl
    · exact_mod_cast (abs_le.mp h).2
    · rw [abs_neg] at h
      exact_mod_cast (abs_le.mp h).2
  obtain ⟨hstored, hlt⟩ := stored_natCast_mul_whole hle
  have hcast : (k : ℤ) * whole = (k * whole : ℕ) := (Nat.cast_mul ..).symm
  rcases hk with rfl | rfl
  · rw [hcast]
    exact ⟨hstored, by omega, by omega⟩
  · rw [neg_mul, hcast, stored_neg, hstored]
    exact ⟨rfl, by omega, by omega⟩

theorem integer?_of_level (hn : Cost.isNumber x = true) (h : |z| ≤ 2 ^ 53)
    (hx : level x = stored (z * whole)) : integer? x = some z := by
  obtain ⟨hstored, hrange⟩ := stored_mul_whole h
  rw [hstored] at hx
  exact integer?_eq_some.mpr ⟨(isFinite_iff_level hn).mpr (hx ▸ hrange), hx⟩

theorem integer?_add (hx : integer? x = some z) (hy : integer? y = some w)
    (h : |z + w| ≤ 2 ^ 53) : integer? (Cost.add x y) = some (z + w) := by
  obtain ⟨hxf, hx⟩ := integer?_eq_some.mp hx
  obtain ⟨hyf, hy⟩ := integer?_eq_some.mp hy
  obtain ⟨hn, hl⟩ := level_add hxf hyf
  exact integer?_of_level hn h (by rw [hl, hx, hy, add_mul])

theorem integer?_sub (hx : integer? x = some z) (hy : integer? y = some w)
    (h : |z - w| ≤ 2 ^ 53) : integer? (Cost.sub x y) = some (z - w) := by
  obtain ⟨hxf, hx⟩ := integer?_eq_some.mp hx
  obtain ⟨hyf, hy⟩ := integer?_eq_some.mp hy
  obtain ⟨hn, hl⟩ := level_sub hxf hyf
  exact integer?_of_level hn h (by rw [hl, hx, hy, sub_mul])

theorem lt_iff_of_integer? (hx : integer? x = some z) (hy : integer? y = some w) :
    Cost.lt x y ↔ z < w := by
  obtain ⟨hxf, hx⟩ := integer?_eq_some.mp hx
  obtain ⟨hyf, hy⟩ := integer?_eq_some.mp hy
  rw [lt_iff_level (isNumber_of_isFinite hxf) (isNumber_of_isFinite hyf), hx, hy]
  exact mul_lt_mul_iff_left₀ (Int.natCast_pos.mpr whole_pos)

theorem beq_iff_of_integer? (hx : integer? x = some z) (hy : integer? y = some w) :
    Cost.beq x y = true ↔ z = w := by
  obtain ⟨hxf, hx⟩ := integer?_eq_some.mp hx
  obtain ⟨hyf, hy⟩ := integer?_eq_some.mp hy
  rw [beq_iff_level (isNumber_of_isFinite hxf) (isNumber_of_isFinite hyf), hx, hy]
  exact mul_left_inj' (Int.natCast_ne_zero.mpr whole_pos.ne')

/-- The number without a fraction that is this integer; both zeros are the integer zero. -/
def IsInteger (x : Float) (z : ℤ) : Prop := integer? x = some z

instance (x : Float) (z : ℤ) : Decidable (IsInteger x z) := inferInstanceAs (Decidable (_ = _))

/-- Within `2 ^ 53`, integral numbers are calculated with as integers are. -/
theorem mirrors_isInteger : Cost.Mirrors IsInteger (|·| ≤ 2 ^ 53) where
  zero := by decide +kernel
  isFinite hx := (integer?_eq_some.mp hx).1
  lt_iff hx hy := lt_iff_of_integer? hx hy
  beq_eq hx hy := Bool.eq_iff_iff.mpr
    ((beq_iff_of_integer? hx hy).trans (decide_eq_true_iff (p := _ = _)).symm)
  add hx hy h := integer?_add hx hy h
  sub hx hy h := integer?_sub hx hy h

/-- No partial sum exceeds the sum of the magnitudes. -/
theorem isInteger_foldl_add {xs : List Float} {zs : List ℤ} (h : List.Forall₂ IsInteger xs zs)
    (hx : IsInteger x z) (hz : |z| + (zs.map (|·|)).sum ≤ 2 ^ 53) :
    IsInteger (xs.foldl Cost.add x) (z + zs.sum) := by
  induction h generalizing x z with
  | nil => simpa using hx
  | @cons y w xs zs hy _ ih =>
    rw [List.map_cons, List.sum_cons] at hz
    have hadd := abs_add_le z w
    have hrest : 0 ≤ (zs.map (|·|)).sum := List.sum_nonneg (by simp)
    rw [List.foldl_cons, List.sum_cons, ← add_assoc]
    exact ih (integer?_add hx hy (by omega)) (by omega)

theorem isInteger_sum {xs : List Float} {zs : List ℤ} (h : List.Forall₂ IsInteger xs zs)
    (hz : (zs.map (|·|)).sum ≤ 2 ^ 53) : IsInteger (Cost.sum xs) zs.sum := by
  have hempty : IsInteger Cost.emptySum 0 := by decide +kernel
  have hsum := isInteger_foldl_add h hempty (by simpa using hz)
  rwa [zero_add] at hsum

end LinearAssignment.Binary64
