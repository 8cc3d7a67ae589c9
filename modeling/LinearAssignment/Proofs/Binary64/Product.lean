import LinearAssignment.Proofs.Cost.Binary64

/-!
Products of finite numbers: where the product with a number is finite, the products of lesser
numbers with it are finite too.

A product may have an exponent below the least one. It is then far from becoming infinite, whatever
it is rounded to, and otherwise it is rounded as a multiple of the least positive number.
-/

namespace LinearAssignment.Binary64

open Float.Model Float.Model.UnpackedFloat

variable {x y z : Float} {s : Sign} {m : ℕ} {e : ℤ}

theorem isFinite_unpack {b : BitVec 64} (h : @unpackExponent .binary64 b ≠ -1#11) :
    (UnpackedFloat.unpack .binary64 b).isFinite = true := by
  unfold UnpackedFloat.unpack
  dsimp only
  rw [if_neg h]
  split_ifs <;> rfl

theorem isFinite_pack_of_le {hm : 0 < m} (hle : -1074 ≤ e) (h : e ≤ 971) :
    (Float.Model.pack (.finite s m e hm)).unpack.isFinite = true := by
  refine isFinite_unpack fun hx ↦ ?_
  change @unpackExponent .binary64 (UnpackedFloat.pack .binary64 (.finite s m e hm)) = _ at hx
  rw [pack_of_le h] at hx
  split_ifs at hx <;> rw [unpackExponent_packComponents] at hx <;>
    have hnat := congrArg BitVec.toNat hx
  · change (e + 1075).toNat % 2 ^ 11 = 2047 at hnat
    omega
  · exact absurd hnat (by decide)

/-- A number with an exponent below the least one does not become infinite. -/
theorem isFinite_roundWithAccuracy (hlt : m < 2 ^ 106) (he : e < -1074) :
    (Float.Model.pack (roundWithAccuracy .binary64 s m e .exact)).unpack.isFinite = true := by
  obtain ⟨k, hk, hspacing, hge, hle⟩ : ∃ k : ℕ,
      Format.binary64.targetExponent (totalExponent m e) = e + k ∧ spacing m ≤ k ∧
        -1074 ≤ e + k ∧ e + k ≤ 970 := by
    have hlog : m.log2 < 106 := by
      rcases Nat.eq_zero_or_pos m with rfl | h
      · simp
      · exact (Nat.log2_lt h.ne').mpr hlt
    refine ⟨(max ((m.log2 : ℤ) + 1 + e - 53) (-1074) - e).toNat, ?_, ?_, by omega, by omega⟩
    · simp only [Format.targetExponent, totalExponent, Format.mantissaBits, Format.minExponent]
      omega
    · unfold spacing
      omega
  have hr : nearest m k ≤ 2 ^ 53 := by
    have hquotient : m / 2 ^ k < 2 ^ 53 := by
      rw [Nat.div_lt_iff_lt_mul (Nat.two_pow_pos k)]
      exact (lt_two_pow_spacing m).trans_le
        (Nat.mul_le_mul_left _ (Nat.pow_le_pow_right (by decide) hspacing))
    exact (nearest_le m k).trans hquotient
  have hshift : (e + k - e).toNat = k := by omega
  rw [roundWithAccuracy, shiftToTargetExponent_eq m e hk, hshift]
  dsimp only
  rw [roundedMantissa_shiftRight]
  rcases hr.lt_or_eq with hr | hr
  · rw [shiftToTargetExponent_of_lt hr hge]
    dsimp only
    split_ifs
    · cases s <;> rfl
    · exact isFinite_pack_of_le hge (by omega)
  · rw [hr, shiftToTargetExponent_carry hge]
    exact isFinite_pack_of_le (by omega) (by omega)

theorem isFinite_roundWithAccuracy_iff (hm : 0 < m) (he : -1074 ≤ e)
    (ht : e ≤ spacing (multiple m e) - 1074) :
    (Float.Model.pack (roundWithAccuracy .binary64 s m e .exact)).unpack.isFinite = true ↔
      rounded (multiple m e) < bound := by
  obtain ⟨hn, hu⟩ := (roundWithAccuracy_eq s hm he ht).stores
  obtain ⟨hc, hr⟩ := canonical_unpack (Float.Model.pack (roundWithAccuracy .binary64 s m e .exact))
  rw [isFinite_iff hc hr hn, hu]
  have hb := bound_pos
  cases s <;> simp only [Sign.apply] <;> omega

theorem multiple_mul_le {m' : ℕ} (m₂ : ℕ) {e' e₂ : ℤ} (h : multiple m e ≤ multiple m' e')
    (he : -1074 ≤ e) (hee : e ≤ e') (hlow : -1074 ≤ e + e₂) :
    multiple (m * m₂) (e + e₂) ≤ multiple (m' * m₂) (e' + e₂) := by
  obtain ⟨d, rfl⟩ : ∃ d : ℕ, e' = e + d := ⟨(e' - e).toNat, by omega⟩
  have hm : m ≤ m' * 2 ^ d := by
    refine Nat.le_of_mul_le_mul_right (c := 2 ^ (e + 1074).toNat) ?_ (Nat.two_pow_pos _)
    rwa [mul_assoc, ← pow_add, show d + (e + 1074).toNat = (e + d + 1074).toNat by omega]
  have hexp : (e + d + e₂ + 1074).toNat = d + (e + e₂ + 1074).toNat := by omega
  calc multiple (m * m₂) (e + e₂) ≤ m' * 2 ^ d * m₂ * 2 ^ (e + e₂ + 1074).toNat :=
        Nat.mul_le_mul_right _ (Nat.mul_le_mul_right _ hm)
    _ = multiple (m' * m₂) (e + d + e₂) := by rw [multiple, hexp, pow_add]; ring

section Product

variable {s' s₂ : Sign} {m' m₂ : ℕ} {e' e₂ : ℤ} {hm : 0 < m} {hm' : 0 < m'} {hm₂ : 0 < m₂}
  (hc : Canonical (.finite s m e hm)) (hc₂ : Canonical (.finite s₂ m₂ e₂ hm₂))
include hc hc₂

theorem mul_lt_two_pow : m * m₂ < 2 ^ 106 :=
  (Nat.mul_lt_mul'' hc.1 hc₂.1).trans_eq (pow_add 2 53 53).symm

/-- Unless both factors are subnormal, their product has bits to be rounded away. -/
theorem add_le_spacing (he : -1074 ≤ e + e₂) :
    e + e₂ ≤ spacing (multiple (m * m₂) (e + e₂)) - 1074 := by
  have hbits : 2 ^ 52 ≤ m * m₂ := by
    obtain ⟨-, -, hn | rfl⟩ := hc
    · exact hn.trans (Nat.le_mul_of_pos_right m hm₂)
    · exact (hc₂.2.2.resolve_right (by omega)).trans (Nat.le_mul_of_pos_left m₂ hm)
  have hlog : 52 ≤ (m * m₂).log2 := (Nat.le_log2 (by positivity)).mpr hbits
  rw [multiple, spacing, log2_mul_two_pow (by positivity)]
  omega

theorem isFinite_mul_of_multiple_le (hc' : Canonical (.finite s' m' e' hm'))
    (hle : multiple m e ≤ multiple m' e')
    (h : (Float.Model.pack (UnpackedFloat.mul .binary64 (.finite s' m' e' hm')
      (.finite s₂ m₂ e₂ hm₂))).unpack.isFinite = true) :
    (Float.Model.pack (UnpackedFloat.mul .binary64 (.finite s m e hm)
      (.finite s₂ m₂ e₂ hm₂))).unpack.isFinite = true := by
  have hee : e ≤ e' := not_lt.mp fun hlt ↦ (multiple_lt_of_lt hc' hc hlt).not_ge hle
  rcases lt_or_ge (e + e₂) (-1074) with hlow | hlow
  · exact isFinite_roundWithAccuracy (mul_lt_two_pow hc hc₂) hlow
  · have hlow' : -1074 ≤ e' + e₂ := by omega
    have hproduct := multiple_mul_le m₂ hle hc.2.1 hee hlow
    refine (isFinite_roundWithAccuracy_iff (Nat.mul_pos hm hm₂) hlow
      (add_le_spacing hc hc₂ hlow)).mpr ((rounded_mono hproduct).trans_lt ?_)
    exact (isFinite_roundWithAccuracy_iff (Nat.mul_pos hm' hm₂) hlow'
      (add_le_spacing hc' hc₂ hlow')).mp h

end Product

theorem isFinite_pack_zero (s : Sign) :
    (Float.Model.pack (.zero s)).unpack.isFinite = true := by cases s <;> rfl

theorem isFinite_mul_of_units_le {f f' g : UnpackedFloat} (hf : Canonical f) (hf' : Canonical f')
    (hg : Canonical g) (hff : f.isFinite = true) (hff' : f'.isFinite = true)
    (hgf : g.isFinite = true) (hnonneg : 0 ≤ units f) (hle : units f ≤ units f')
    (h : (Float.Model.pack (UnpackedFloat.mul .binary64 f' g)).unpack.isFinite = true) :
    (Float.Model.pack (UnpackedFloat.mul .binary64 f g)).unpack.isFinite = true := by
  cases f with
  | notANumber => cases hff
  | infinity s => cases hff
  | zero s =>
    cases g with
    | notANumber => cases hgf
    | infinity s₂ => cases hgf
    | zero s₂ => exact isFinite_pack_zero (s * s₂)
    | finite s₂ m₂ e₂ hm₂ => exact isFinite_pack_zero (s * s₂)
  | finite s m e hm =>
    have hpos := multiple_pos hm e
    obtain rfl : s = .positive := by
      cases s
      · simp only [units, Sign.apply] at hnonneg
        omega
      · rfl
    cases g with
    | notANumber => cases hgf
    | infinity s₂ => cases hgf
    | zero s₂ => exact isFinite_pack_zero (Sign.positive * s₂)
    | finite s₂ m₂ e₂ hm₂ =>
      cases f' with
      | notANumber => cases hff'
      | infinity s' => cases hff'
      | zero s' =>
        simp only [units, Sign.apply] at hle
        omega
      | finite s' m' e' hm' =>
        refine isFinite_mul_of_multiple_le hf hg hf' ?_ h
        cases s' <;> simp only [units, Sign.apply] at hle <;> omega

theorem isFinite_mul_of_le (hx : Cost.isNumber x = true) (hx' : 0 ≤ level x)
    (hxy : level x ≤ level y) (h : Cost.isFinite (y.mul z) = true) :
    Cost.isFinite (x.mul z) = true := by
  obtain ⟨hy, hz⟩ := isFinite_of_isFinite_mul h
  have hbound := (isFinite_iff_level (isNumber_of_isFinite hy)).mp hy
  have hxf : Cost.isFinite x = true := (isFinite_iff_level hx).mpr (by omega)
  exact isFinite_mul_of_units_le (canonical_unpack x.toModel).1 (canonical_unpack y.toModel).1
    (canonical_unpack z.toModel).1 hxf hy hz hx' hxy h

end LinearAssignment.Binary64
