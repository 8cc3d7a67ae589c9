import LinearAssignment.Proofs.Binary64.Integral

/-!
Numbers with a fraction and numbers without one.

A number without a fraction may be of any magnitude. A number with one lies below `2 ^ 53`, as all
its bits would stand before the point otherwise.
-/

namespace LinearAssignment.Binary64

open Float.Model Float.Model.UnpackedFloat

variable {x y : Float} {s : Sign} {m : ℕ} {q : ℤ} {hm : 0 < m}

theorem dvd_rounded (n j : ℕ) : 2 ^ j ∣ rounded (n * 2 ^ j) := by
  rcases le_total (spacing (n * 2 ^ j)) j with h | h
  · rw [rounded_of_dvd ((pow_dvd_pow 2 h).trans (dvd_mul_left _ _))]
    exact dvd_mul_left _ _
  · exact (pow_dvd_pow 2 h).trans (dvd_mul_left _ _)

/-- Rounding an integer leaves an integer. -/
theorem whole_dvd_rounded (n : ℕ) : whole ∣ rounded (n * whole) := by
  obtain ⟨j, -, hj⟩ := exists_whole_eq
  rw [hj]
  exact dvd_rounded n j

theorem level_neg (hx : Cost.isNumber x = true) :
    Cost.isNumber (-x) = true ∧ level (-x) = -level x := by
  obtain ⟨hc, hr⟩ := canonical_unpack x.toModel
  obtain ⟨hc', hr'⟩ := canonical_neg hc hr
  have hn := isNumber_iff.mp hx
  have hn' : x.toModel.unpack.neg ≠ .notANumber := by
    cases hu : x.toModel.unpack with
    | notANumber => exact absurd hu hn
    | _ => exact nofun
  have hlevel : -level x = units x.toModel.unpack.neg := (units_neg _).symm
  rw [hlevel]
  exact level_of_stores (stores_self hc' hr' hn') rfl

theorem integer?_congr (hx : Cost.isFinite x = true) (hy : Cost.isFinite y = true)
    (h : level x = level y) : integer? x = integer? y :=
  Option.ext fun z ↦ by simp only [integer?_eq_some, hx, hy, h]

theorem beq_of_level (hy : Cost.isNumber y = true) (hx : Cost.isNumber x = true)
    (h : level y = level x) : (y == x) = true := (beq_iff_level hy hx).mpr h

theorem abs_apply (s : Sign) (k : ℕ) : |s.apply (k : ℤ)| = k := by
  cases s
  · exact (abs_neg _).trans (Nat.abs_cast k)
  · exact Nat.abs_cast k

theorem abs_level (hx : x.toModel.unpack = .finite s m q hm) : |level x| = multiple m q := by
  rw [level, hx]
  exact abs_apply s (multiple m q)

theorem whole_eq_two_pow : whole = 2 ^ 1074 := by
  unfold whole multiple
  rw [one_mul, show (0 + 1074 : ℤ).toNat = 1074 from rfl]

theorem multiple_lt_of_neg (hlt : m < 2 ^ 53) (hle : -1074 ≤ q) (hq : q < 0) :
    multiple m q < 2 ^ 53 * whole := by
  rw [whole_eq hle hq.le]
  calc multiple m q < 2 ^ 53 * 2 ^ (q + 1074).toNat :=
        Nat.mul_lt_mul_of_pos_right hlt (Nat.two_pow_pos _)
    _ = 2 ^ 53 * multiple 1 q := by rw [multiple, one_mul]
    _ ≤ 2 ^ 53 * (2 ^ (-q).toNat * multiple 1 q) :=
        Nat.mul_le_mul_left _ (Nat.le_mul_of_pos_left _ (Nat.two_pow_pos _))

theorem exists_unpack (hf : Cost.isFinite x = true) (hl : level x ≠ 0) :
    ∃ s m q hm, x.toModel.unpack = .finite s m q hm := by
  change x.toModel.unpack.isFinite = true at hf
  unfold level at hl
  cases hu : x.toModel.unpack with
  | notANumber => rw [hu] at hf; cases hf
  | infinity s => rw [hu] at hf; cases hf
  | zero s => rw [hu] at hl; exact absurd rfl hl
  | finite s m q hm => exact ⟨s, m, q, hm, rfl⟩

/-- Only numbers below `2 ^ 53` have digits behind the point. -/
theorem exponent_nonneg (hu : x.toModel.unpack = .finite s m q hm)
    (h : 2 ^ 53 * (whole : ℤ) ≤ |level x|) : 0 ≤ q := by
  obtain ⟨hc, -⟩ := canonical_unpack x.toModel
  rw [hu] at hc
  rw [abs_level hu] at h
  by_contra hq
  have hlt := multiple_lt_of_neg hc.1 hc.2.1 (not_le.mp hq)
  omega

theorem exponent_neg (hu : x.toModel.unpack = .finite s m q hm) (hx : integer? x = none) :
    q < 0 := by
  by_contra hq
  rw [integer?, hu] at hx
  dsimp only at hx
  rw [if_pos (not_lt.mp hq)] at hx
  cases hx

theorem exists_unpack_of_fraction (hf : Cost.isFinite x = true) (hx : integer? x = none) :
    ∃ s m q hm, x.toModel.unpack = .finite s m q hm := by
  refine exists_unpack hf fun hl ↦ Option.some_ne_none (0 : ℤ) ?_
  rw [← hx, eq_comm, integer?_eq_some, hl, zero_mul]
  exact ⟨hf, rfl⟩

/-! ### Numbers that fit into 64 bits -/

/-- A finite number of at most `2 ^ 63` in magnitude. -/
def Fits (x : Float) : Prop := Cost.isFinite x = true ∧ |Cost.Lawful.value x| ≤ 2 ^ 63

theorem abs_div_two_pow_le (z : ℤ) (k t : ℕ) :
    |(z : ℚ) / 2 ^ t| ≤ 2 ^ k ↔ |z| ≤ 2 ^ k * (2 ^ t : ℕ) := by
  rw [abs_div, abs_of_pos (show (0 : ℚ) < 2 ^ t by positivity), div_le_iff₀ (by positivity)]
  exact_mod_cast Iff.rfl

theorem fits_iff_level : Fits x ↔ Cost.isFinite x = true ∧ |level x| ≤ 2 ^ 63 * whole := by
  rw [whole_eq_two_pow]
  exact and_congr_right fun _ ↦ abs_div_two_pow_le (level x) 63 1074

instance (x : Float) : Decidable (Fits x) := decidable_of_iff _ fits_iff_level.symm

theorem fits_iff_of_integer? {i : ℤ} (hx : integer? x = some i) : Fits x ↔ |i| ≤ 2 ^ 63 := by
  obtain ⟨hf, hl⟩ := integer?_eq_some.mp hx
  have hwhole : (0 : ℤ) < whole := Int.natCast_pos.mpr whole_pos
  rw [fits_iff_level, and_iff_right hf, hl, abs_mul, abs_of_pos hwhole, mul_le_mul_iff_left₀ hwhole]

theorem fits_of_fraction (hf : Cost.isFinite x = true) (hx : integer? x = none) : Fits x := by
  obtain ⟨s, m, q, hm, hu⟩ := exists_unpack_of_fraction hf hx
  obtain ⟨hc, -⟩ := canonical_unpack x.toModel
  rw [hu] at hc
  have hlt := multiple_lt_of_neg hc.1 hc.2.1 (exponent_neg hu hx)
  rw [fits_iff_level, abs_level hu]
  exact ⟨hf, by omega⟩

end LinearAssignment.Binary64
