import LinearAssignment.Proofs.Binary64.Integral

/-!
Decimals as binary64 numbers.

An integer is rounded to 53 significant bits. Scaled by a negative power of two, a mantissa of 53
bits is a decimal with as many digits behind its point, and becomes that number again.
-/

namespace LinearAssignment.Binary64

open Float.Model Float.Model.UnpackedFloat

theorem Represents.unique {f g : UnpackedFloat} {s : Sign} {k : ℕ} (hf : Represents f s k)
    (hg : Represents g s k) : f = g := by
  obtain ⟨m, e, hm, rfl, hc, hk⟩ := hf
  obtain ⟨m', e', hm', rfl, hc', hk'⟩ := hg
  have he : e = e' := by
    rcases lt_trichotomy e e' with h | h | h
    · exact absurd (multiple_lt_of_lt hc hc' h) (by omega)
    · exact h
    · exact absurd (multiple_lt_of_lt hc' hc h) (by omega)
  subst he
  obtain rfl : m = m' := Nat.eq_of_mul_eq_mul_right (Nat.two_pow_pos _) (hk.trans hk'.symm)
  rfl

/-- A canonical number is the one that its own multiple is rounded to. -/
theorem represents_self {s : Sign} {m : ℕ} {e : ℤ} {hm : 0 < m}
    (hc : Canonical (.finite s m e hm)) :
    Represents (.finite s m e hm) s (rounded (multiple m e)) :=
  ⟨m, e, hm, rfl, hc, (rounded_mul_two_pow hc.1 _).symm⟩

theorem exponentBits_eq : (2 : ℤ) ^ Format.binary64.exponentBits = 2048 := by decide

/-- A decimal without digits behind its point is rounded as an integer. -/
theorem represents_ofScientific {n : ℕ} (hn : 0 < n) {e : ℤ} (he : 0 ≤ e) (he' : e ≤ 2048) :
    Represents (UnpackedFloat.ofScientific .binary64 n e) .positive
      (rounded (n * 10 ^ e.toNat * whole)) := by
  rw [UnpackedFloat.ofScientific, dif_neg hn.ne', exponentBits_eq, if_neg (by omega),
    if_neg (by omega), if_pos he]
  -- The product is taken of `n`, with 53 more bits behind its point, and the power of ten.
  change Represents (roundWithAccuracy .binary64 .positive (n <<< 53 * 10 ^ e.toNat) (-53 + 0)
    .exact) .positive _
  set m := n <<< 53 * 10 ^ e.toNat with hm
  have hpos : 0 < m := by
    rw [hm, Nat.shiftLeft_eq]
    positivity
  have hmul : multiple m (-53 + 0) = n * 10 ^ e.toNat * whole := by
    rw [whole_eq (show (-1074 : ℤ) ≤ -53 + 0 by decide) (by decide), hm, Nat.shiftLeft_eq,
      multiple, multiple, show (-(-53 + 0) : ℤ).toNat = 53 from rfl]
    ring
  have hlog : 53 ≤ m.log2 := by
    rw [Nat.le_log2 hpos.ne', hm, Nat.shiftLeft_eq]
    calc 2 ^ 53 = 1 * 2 ^ 53 * 1 := by ring
      _ ≤ n * 2 ^ 53 * 10 ^ e.toNat := by gcongr; omega; exact Nat.one_le_pow _ _ (by decide)
  have hspacing : (-53 + 0 : ℤ) ≤ spacing (multiple m (-53 + 0)) - 1074 := by
    rw [multiple, spacing, log2_mul_two_pow hpos.ne']
    omega
  rw [← hmul]
  exact roundWithAccuracy_eq .positive hpos (by decide) hspacing

/-! ### Powers of ten behind the point -/

theorem log2_mul_le {a b : ℕ} (ha : 0 < a) (hb : 0 < b) : (a * b).log2 ≤ a.log2 + b.log2 + 1 := by
  rw [← Nat.lt_succ_iff, Nat.log2_lt (by positivity)]
  calc a * b < 2 ^ (a.log2 + 1) * 2 ^ (b.log2 + 1) :=
        Nat.mul_lt_mul'' Nat.lt_log2_self Nat.lt_log2_self
    _ = 2 ^ (a.log2 + b.log2 + 1).succ := by rw [← pow_add]; congr 1; omega

/-- As `2 ^ (-k)` is `5 ^ k` units of the `k`-th digit behind the point, the division by `10 ^ k`
leaves no remainder, and the quotient is not longer than rounding allows. -/
theorem divCore_exact {m k : ℕ} (hm : 0 < m) (hlt : m < 2 ^ 53) (hk : k ≤ 1074) :
    ∃ j : ℕ, divCore .binary64 (m * 5 ^ k) 0 (10 ^ k) 0 = (m * 2 ^ j, -(j + k : ℤ), .exact) ∧
      j + k ≤ 1074 ∧ 1074 ≤ spacing (multiple m (-k)) + (j + k) := by
  set t := min (0 - 0) (Format.binary64.targetExponent
    (totalExponent (m * 5 ^ k) 0 - totalExponent (10 ^ k) 0)) with ht
  have htens : 10 ^ k = 5 ^ k * 2 ^ k := mul_pow 5 2 k
  have hten : (10 ^ k).log2 = (5 ^ k).log2 + k := by
    rw [htens, log2_mul_two_pow (Nat.pow_pos (by decide)).ne']
  have hlog : m.log2 < 53 := (Nat.log2_lt hm.ne').mpr hlt
  have hmul := log2_mul_le hm (Nat.pow_pos (n := k) (show 0 < 5 by decide))
  have hspacing : spacing (multiple m (-k)) = m.log2 + (1074 - k) - 52 := by
    rw [multiple, spacing, log2_mul_two_pow hm.ne']
    congr 2
    omega
  obtain ⟨j, hj, hjk, hjs⟩ : ∃ j : ℕ, t = -(j + k : ℤ) ∧ j + k ≤ 1074 ∧
      1074 ≤ spacing (multiple m (-k)) + (j + k) := by
    have ht' : -1074 ≤ t ∧ t ≤ -k ∧ t ≤ spacing (multiple m (-k)) - 1074 := by
      rw [ht, hspacing]
      simp only [Format.targetExponent, totalExponent, Format.mantissaBits, Format.minExponent,
        hten]
      omega
    exact ⟨(-k - t).toNat, by omega, by omega, by omega⟩
  have hshift : (m * 5 ^ k) <<< (0 - 0 - t).toNat = m * 2 ^ j * 10 ^ k := by
    rw [hj, Nat.shiftLeft_eq, show (0 - 0 - -(j + k : ℤ)).toNat = j + k by omega, pow_add,
      htens]
    ring
  refine ⟨j, ?_, hjk, hjs⟩
  rw [divCore, ← ht, hshift, Nat.mul_div_cancel _ (by positivity), Nat.mul_mod_left, hj]
  rfl

theorem ofScientific_exact {m : ℕ} {q : ℤ} {hm : 0 < m}
    (hc : Canonical (.finite .positive m q hm)) (hq : q < 0) :
    UnpackedFloat.ofScientific .binary64 (m * 5 ^ (-q).toNat) q = .finite .positive m q hm := by
  obtain ⟨k, rfl⟩ : ∃ k : ℕ, q = -k := ⟨(-q).toNat, by omega⟩
  have hk : (- -(k : ℤ)).toNat = k := by omega
  obtain ⟨hlt, hle, -⟩ := id hc
  have hpos : 0 < m * 5 ^ k := by positivity
  obtain ⟨j, hdiv, hjk, hjs⟩ := divCore_exact hm hlt (show k ≤ 1074 by omega)
  have hround : multiple (m * 2 ^ j) (-(j + k : ℤ)) = multiple m (-k) := by
    rw [multiple, multiple, mul_assoc, ← pow_add]
    congr 2
    omega
  have hrep := roundWithAccuracy_eq .positive (m := m * 2 ^ j) (e := -(j + k : ℤ))
    (by positivity) (by omega) (by rw [hround]; omega)
  rw [hround] at hrep
  have hofs : UnpackedFloat.ofScientific .binary64 (m * 5 ^ k) (-k) =
      roundWithAccuracy .binary64 .positive (m * 2 ^ j) (-(j + k : ℤ)) .exact := by
    rw [UnpackedFloat.ofScientific, dif_neg hpos.ne', exponentBits_eq, if_neg (by omega),
      if_neg (by omega), if_neg (by omega)]
    simp only [hk, UnpackedFloat.div, hdiv]
    rfl
  rw [hk, hofs]
  exact hrep.unique (represents_self hc)

end LinearAssignment.Binary64
