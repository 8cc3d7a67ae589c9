import LinearAssignment.Proofs.Binary64.Nearest

/-!
What rounding makes of an exact result in binary64.

Every finite number is a multiple of the least positive one, `2 ^ -1074`, and so is every exact sum
and difference. `round_eq` says that such a multiple is rounded to 53 significant bits.
-/

namespace LinearAssignment.Binary64

open Float.Model Float.Model.UnpackedFloat

/-- The multiple of `2 ^ -1074` that a mantissa and an exponent stand for. -/
def multiple (m : ℕ) (e : ℤ) : ℕ := m * 2 ^ (e + 1074).toNat

theorem multiple_pos {m : ℕ} (hm : 0 < m) (e : ℤ) : 0 < multiple m e :=
  Nat.mul_pos hm (Nat.two_pow_pos _)

theorem log2_mul_two_pow {m : ℕ} (hm : m ≠ 0) (k : ℕ) : (m * 2 ^ k).log2 = m.log2 + k := by
  rw [Nat.log2_eq_iff (by positivity), Nat.add_right_comm, pow_add, pow_add]
  exact ⟨Nat.mul_le_mul_right _ (Nat.log2_self_le hm),
    Nat.mul_lt_mul_of_pos_right Nat.lt_log2_self (Nat.two_pow_pos k)⟩

theorem targetExponent_eq {m : ℕ} (hm : m ≠ 0) {e : ℤ} (he : -1074 ≤ e) :
    Format.binary64.targetExponent (totalExponent m e) = spacing (multiple m e) - 1074 := by
  rw [multiple, spacing, log2_mul_two_pow hm]
  simp only [Format.targetExponent, totalExponent, Format.mantissaBits, Format.minExponent]
  omega

/-- The bits behind a mantissa after `k` shifts: the first of them, and whether any other is set. -/
theorem repeat_shiftRightOne (m k : ℕ) :
    (k + 1).repeat ExtendedMantissa.shiftRightOne ⟨m, false, false⟩ =
      ⟨m / 2 ^ (k + 1), m / 2 ^ k % 2 != 0, m % 2 ^ k != 0⟩ := by
  induction k with
  | zero => simp [Nat.repeat, ExtendedMantissa.shiftRightOne, Nat.mod_one]
  | succ k ih =>
    have hr : m % 2 ^ (k + 1) = m % 2 ^ k + 2 ^ k * (m / 2 ^ k % 2) := by
      rw [pow_succ, Nat.mod_mul]
    have hk := Nat.two_pow_pos k
    rw [Nat.repeat, ih]
    simp only [ExtendedMantissa.shiftRightOne, Nat.div_div_eq_div_mul, ← pow_succ, hr]
    rcases Nat.mod_two_eq_zero_or_one (m / 2 ^ k) with h | h <;> simp [h]

theorem roundedMantissa_eq (q : ℕ) (half rest : Bool) :
    ExtendedMantissa.roundedMantissa ⟨q, half, rest⟩ =
      if half then if rest then q + 1 else q + q % 2 else q := by
  cases half <;> cases rest <;> rfl

theorem roundedMantissa_shiftRight (m k : ℕ) :
    ((ExtendedMantissa.ofMantissaAndAccuracy m .exact) >>> k).roundedMantissa = nearest m k := by
  change (k.repeat ExtendedMantissa.shiftRightOne ⟨m, false, false⟩).roundedMantissa = _
  cases k with
  | zero => exact (nearest_zero m).symm
  | succ k =>
    have hr : m % 2 ^ (k + 1) = m % 2 ^ k + 2 ^ k * (m / 2 ^ k % 2) := by
      rw [pow_succ, Nat.mod_mul]
    have hlt := Nat.mod_lt m (Nat.two_pow_pos k)
    have hk : 2 ^ (k + 1) = 2 * 2 ^ k := by ring
    rw [repeat_shiftRightOne, roundedMantissa_eq, nearest]
    -- The first bit behind tells on which side of the half the rest lies.
    rcases Nat.mod_two_eq_zero_or_one (m / 2 ^ k) with h | h <;> rw [h] at hr ⊢
    · rw [if_neg (by decide), if_pos (by omega)]
    · by_cases hs : m % 2 ^ k = 0
      · rw [if_pos (by decide), if_neg (by simp [hs]), if_neg (by omega), if_pos (by omega)]
      · rw [if_pos (by decide), if_pos (by simp [hs]), if_neg (by omega), if_neg (by omega)]

theorem shiftToTargetExponent_eq (m : ℕ) (e : ℤ) {t : ℤ}
    (ht : Format.binary64.targetExponent (totalExponent m e) = t) :
    shiftToTargetExponent .binary64 m e .exact =
      ((ExtendedMantissa.ofMantissaAndAccuracy m .exact) >>> (t - e).toNat, e + (t - e).toNat) := by
  rw [shiftToTargetExponent, ht]
  rfl

theorem shiftToTargetExponent_of_lt {r : ℕ} (hr : r < 2 ^ 53) {t : ℤ} (ht : -1074 ≤ t) :
    shiftToTargetExponent .binary64 r t .exact = (⟨r, false, false⟩, t) := by
  have hl : r.log2 ≤ 52 := by
    rcases Nat.eq_zero_or_pos r with rfl | h
    · simp
    · have := (Nat.log2_lt h.ne').mpr hr
      omega
  have hle : (Format.binary64.targetExponent (totalExponent r t) - t).toNat = 0 := by
    simp only [Format.targetExponent, totalExponent, Format.mantissaBits, Format.minExponent]
    omega
  rw [shiftToTargetExponent_eq r t rfl, hle, Nat.cast_zero, add_zero]
  rfl

/-- A carry into the 54th bit is shifted back. -/
theorem shiftToTargetExponent_carry {t : ℤ} (ht : -1074 ≤ t) :
    shiftToTargetExponent .binary64 (2 ^ 53) t .exact = (⟨2 ^ 52, false, false⟩, t + 1) := by
  have he : Format.binary64.targetExponent (totalExponent (2 ^ 53) t) = t + 1 := by
    simp only [Format.targetExponent, totalExponent, Format.mantissaBits, Format.minExponent,
      Nat.log2_two_pow]
    omega
  rw [shiftToTargetExponent_eq _ t he, add_sub_cancel_left]
  rfl

/-- The form in which numbers are stored: 53 significant bits, or fewer at the least exponent. -/
def Canonical : UnpackedFloat → Prop
  | .finite _ m e _ => m < 2 ^ 53 ∧ -1074 ≤ e ∧ (2 ^ 52 ≤ m ∨ e = -1074)
  | _ => True

/-- `f` is the number of sign `s` that stands for `k` times `2 ^ -1074`. -/
def Represents (f : UnpackedFloat) (s : Sign) (k : ℕ) : Prop :=
  ∃ q e, ∃ hq : 0 < q, f = .finite s q e hq ∧ Canonical f ∧ multiple q e = k

theorem roundWithAccuracy_eq (s : Sign) {m : ℕ} (hm : 0 < m) {e : ℤ} (he : -1074 ≤ e)
    (ht : e ≤ spacing (multiple m e) - 1074) :
    Represents (roundWithAccuracy .binary64 s m e .exact) s (rounded (multiple m e)) := by
  obtain ⟨k, hk⟩ : ∃ k, spacing (multiple m e) = k + (e + 1074).toNat :=
    ⟨spacing (multiple m e) - (e + 1074).toNat, by omega⟩
  set r := nearest (multiple m e) (spacing (multiple m e)) with hr
  have hrm : nearest m k = r := by rw [hr, hk, multiple, nearest_mul_two_pow]
  have hle : r ≤ 2 ^ 53 := nearest_spacing_le _
  have hnormal : 2 ^ 52 ≤ r ∨ spacing (multiple m e) = 0 := by
    rcases Nat.eq_zero_or_pos (spacing (multiple m e)) with h | h
    · exact .inr h
    · exact .inl (two_pow_le_nearest h)
  have hpos : 0 < r := by
    rcases hnormal with h | h
    · omega
    · rw [hr, h, nearest_zero]
      exact multiple_pos hm e
  have hfirst : shiftToTargetExponent .binary64 m e .exact =
      ((ExtendedMantissa.ofMantissaAndAccuracy m .exact) >>> k, e + k) := by
    rw [shiftToTargetExponent_eq m e (targetExponent_eq hm.ne' he)]
    have hk' : ((spacing (multiple m e) : ℤ) - 1074 - e).toNat = k := by omega
    rw [hk']
  have hexp : (e + k + 1074).toNat = spacing (multiple m e) := by omega
  rw [roundWithAccuracy, hfirst]
  dsimp only
  rw [roundedMantissa_shiftRight, hrm]
  rcases hle.lt_or_eq with hlt | heq
  · rw [shiftToTargetExponent_of_lt hlt (by omega)]
    refine ⟨r, e + k, hpos, dif_neg hpos.ne', ?_, ?_⟩
    · rw [dif_neg hpos.ne']
      exact ⟨hlt, by omega, hnormal.imp_right (by omega)⟩
    · rw [multiple, hexp, rounded]
  · rw [heq, shiftToTargetExponent_carry (by omega)]
    refine ⟨2 ^ 52, e + k + 1, Nat.two_pow_pos 52, rfl, ?_, ?_⟩
    · exact ⟨show 2 ^ 52 < 2 ^ 53 by decide, by omega, .inl le_rfl⟩
    · have hexp' : (e + k + 1 + 1074).toNat = spacing (multiple m e) + 1 := by omega
      rw [multiple, hexp', rounded, ← hr, heq, pow_succ]
      ring

/-- A positive multiple of `2 ^ -1074` is rounded to the nearest one of 53 significant bits. -/
theorem round_eq (s : Sign) {m : ℕ} (hm : 0 < m) {e : ℤ} (he : -1074 ≤ e) :
    Represents (UnpackedFloat.round .binary64 s m e) s (rounded (multiple m e)) := by
  rw [UnpackedFloat.round, targetExponent_eq hm.ne' he]
  set d := (e - ((spacing (multiple m e) : ℤ) - 1074)).toNat with hd
  have hmul : multiple (m <<< d) (e - d) = multiple m e := by
    rw [multiple, multiple, Nat.shiftLeft_eq, mul_assoc, ← pow_add]
    congr 2
    omega
  have h := roundWithAccuracy_eq s (m := m <<< d) (e := e - d)
    (by rw [Nat.shiftLeft_eq]; positivity) (by omega) (by rw [hmul]; omega)
  rwa [hmul] at h

end LinearAssignment.Binary64
