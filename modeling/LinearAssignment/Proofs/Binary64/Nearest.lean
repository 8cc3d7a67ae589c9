import Mathlib

/-!
Rounding of natural numbers to 53 significant bits, to the nearest and with ties to even.

The rounding is monotone and leaves what already has at most 53 significant bits as it is.
-/

namespace LinearAssignment.Binary64

/-- The quotient of a division by `2 ^ k`, to the nearest, a tie to the even neighbour. -/
def nearest (m k : ℕ) : ℕ :=
  if 2 * (m % 2 ^ k) < 2 ^ k then m / 2 ^ k
  else if 2 * (m % 2 ^ k) = 2 ^ k then m / 2 ^ k + m / 2 ^ k % 2
  else m / 2 ^ k + 1

theorem le_nearest (m k : ℕ) : m / 2 ^ k ≤ nearest m k := by
  unfold nearest
  split_ifs <;> omega

theorem nearest_le (m k : ℕ) : nearest m k ≤ m / 2 ^ k + 1 := by
  unfold nearest
  split_ifs <;> omega

theorem nearest_zero (m : ℕ) : nearest m 0 = m := by
  simp [nearest, Nat.mod_one]

theorem nearest_mono {m l : ℕ} (h : m ≤ l) (k : ℕ) : nearest m k ≤ nearest l k := by
  have hq : m / 2 ^ k ≤ l / 2 ^ k := Nat.div_le_div_right h
  rcases hq.lt_or_eq with hq | hq
  · exact (nearest_le m k).trans (Nat.succ_le_of_lt hq |>.trans (le_nearest l k))
  · -- Equal quotients leave the order to the remainders.
    have hm := Nat.div_add_mod m (2 ^ k)
    have hl := Nat.div_add_mod l (2 ^ k)
    rw [← hq] at hl
    have hr : m % 2 ^ k ≤ l % 2 ^ k := by omega
    unfold nearest
    rw [← hq]
    split_ifs <;> omega

theorem nearest_mul_two_pow (m k j : ℕ) : nearest (m * 2 ^ j) (k + j) = nearest m k := by
  have hj : 0 < 2 ^ j := Nat.two_pow_pos j
  have hq : m * 2 ^ j / 2 ^ (k + j) = m / 2 ^ k := by
    rw [pow_add, Nat.mul_div_mul_right _ _ hj]
  have hr : m * 2 ^ j % 2 ^ (k + j) = m % 2 ^ k * 2 ^ j := by
    rw [pow_add, Nat.mul_mod_mul_right]
  have hlt : 2 * (m % 2 ^ k * 2 ^ j) < 2 ^ (k + j) ↔ 2 * (m % 2 ^ k) < 2 ^ k := by
    rw [pow_add, ← mul_assoc, Nat.mul_lt_mul_right hj]
  have heq : 2 * (m % 2 ^ k * 2 ^ j) = 2 ^ (k + j) ↔ 2 * (m % 2 ^ k) = 2 ^ k := by
    rw [pow_add, ← mul_assoc, Nat.mul_left_inj hj.ne']
  simp only [nearest, hq, hr, hlt, heq]

theorem nearest_of_mul (q k : ℕ) : nearest (q * 2 ^ k) k = q := by
  have h := nearest_mul_two_pow q 0 k
  rwa [Nat.zero_add, nearest_zero] at h

/-- The last of 53 significant bits counts `2 ^ spacing m`. -/
def spacing (m : ℕ) : ℕ := m.log2 - 52

/-- The nearest number of 53 significant bits. -/
def rounded (m : ℕ) : ℕ := nearest m (spacing m) * 2 ^ spacing m

theorem lt_two_pow_spacing (m : ℕ) : m < 2 ^ 53 * 2 ^ spacing m := by
  rw [← pow_add]
  exact Nat.lt_log2_self.trans_le (Nat.pow_le_pow_right (by decide) (by unfold spacing; omega))

theorem nearest_spacing_le (m : ℕ) : nearest m (spacing m) ≤ 2 ^ 53 := by
  have h := (Nat.div_lt_iff_lt_mul (Nat.two_pow_pos _)).mpr (lt_two_pow_spacing m)
  exact (nearest_le _ _).trans h

theorem two_pow_le_nearest {m : ℕ} (h : 0 < spacing m) : 2 ^ 52 ≤ nearest m (spacing m) := by
  refine le_trans ?_ (le_nearest _ _)
  rw [Nat.le_div_iff_mul_le (Nat.two_pow_pos _), ← pow_add]
  have hm : m ≠ 0 := by rintro rfl; simp [spacing] at h
  have he : 52 + spacing m = m.log2 := by unfold spacing at h ⊢; omega
  exact he ▸ Nat.log2_self_le hm

theorem spacing_mono {m l : ℕ} (h : m ≤ l) : spacing m ≤ spacing l := by
  unfold spacing
  rcases Nat.eq_zero_or_pos m with rfl | hm
  · simp
  · have hlog : m.log2 ≤ l.log2 :=
      (Nat.le_log2 (by omega)).mpr ((Nat.log2_self_le hm.ne').trans h)
    omega

theorem rounded_mono {m l : ℕ} (h : m ≤ l) : rounded m ≤ rounded l := by
  rcases (spacing_mono h).lt_or_eq with hs | hs
  · -- The power of two between the two spacings parts the results.
    calc rounded m ≤ 2 ^ 53 * 2 ^ spacing m := Nat.mul_le_mul_right _ (nearest_spacing_le m)
      _ = 2 ^ 52 * 2 ^ (spacing m + 1) := by ring
      _ ≤ 2 ^ 52 * 2 ^ spacing l := by gcongr; decide; omega
      _ ≤ rounded l := Nat.mul_le_mul_right _ (two_pow_le_nearest (by omega))
  · unfold rounded
    rw [← hs]
    exact Nat.mul_le_mul_right _ (nearest_mono h _)

theorem rounded_of_dvd {m : ℕ} (h : 2 ^ spacing m ∣ m) : rounded m = m := by
  obtain ⟨q, hq⟩ := h
  have h := nearest_of_mul q (spacing m)
  rw [mul_comm, ← hq] at h
  rw [rounded, h, mul_comm, ← hq]

@[simp] theorem rounded_zero : rounded 0 = 0 := rounded_of_dvd (dvd_zero _)

theorem spacing_mul_le {q : ℕ} (hq : q < 2 ^ 53) (k : ℕ) : spacing (q * 2 ^ k) ≤ k := by
  rcases Nat.eq_zero_or_pos q with rfl | h
  · simp [spacing]
  · have hlog : (q * 2 ^ k).log2 < 53 + k := by
      rw [Nat.log2_lt (by positivity), pow_add]
      exact Nat.mul_lt_mul_of_pos_right hq (Nat.two_pow_pos k)
    unfold spacing
    omega

/-- Numbers of at most 53 significant bits are not rounded. -/
theorem rounded_mul_two_pow {q : ℕ} (hq : q < 2 ^ 53) (k : ℕ) : rounded (q * 2 ^ k) = q * 2 ^ k :=
  rounded_of_dvd ((pow_dvd_pow 2 (spacing_mul_le hq k)).trans (dvd_mul_left _ _))

theorem rounded_two_pow (k : ℕ) : rounded (2 ^ k) = 2 ^ k := by
  have h := rounded_mul_two_pow (q := 1) (by decide) k
  rwa [one_mul] at h

end LinearAssignment.Binary64
