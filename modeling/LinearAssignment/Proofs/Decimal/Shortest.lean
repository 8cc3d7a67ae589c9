import LinearAssignment.Decimal.Text
import LinearAssignment.Proofs.Binary64.Fraction
import LinearAssignment.Proofs.Binary64.Scientific
import LinearAssignment.Proofs.Decimal.Digits

/-!
The shortest decimal of a number, and the numbers that decimals without a point are.
-/

namespace LinearAssignment.Decimal

open Binary64 Float.Model Float.Model.UnpackedFloat

variable {d : Decimal} {m : ℕ} {q : ℤ} {h : 0 < m}

theorem toFloat_of_ofScientific (hd : UnpackedFloat.ofScientific .binary64 d.digits d.exponent =
    .finite .positive m q h) : d.toFloat = magnitude m q h := by
  change Float.ofModel (Float.Model.pack (UnpackedFloat.ofScientific ..)) = _
  rw [hd]
  rfl

theorem toFloat_exact (hc : Canonical (.finite .positive m q h)) :
    (exact m q).toFloat = magnitude m q h := by
  refine toFloat_of_ofScientific ?_
  rcases lt_or_ge q 0 with hq | hq
  · have hexact : exact m q = ⟨m * 5 ^ (-q).toNat, q⟩ := by
      rw [exact, min_eq_left hq.le, show q.toNat = 0 by omega]
      exact congrArg (fun n ↦ Decimal.mk (n * 5 ^ (-q).toNat) q) (mul_one m)
    rw [hexact]
    exact ofScientific_exact hc hq
  · have hexact : exact m q = ⟨m * 2 ^ q.toNat, 0⟩ := by
      rw [exact, min_eq_right hq, show (-q).toNat = 0 by omega]
      exact congrArg (Decimal.mk · 0) (mul_one _)
    have hmul : m * 2 ^ q.toNat * 10 ^ (0 : ℤ).toNat * whole = multiple m q := by
      rw [multiple_of_nonneg m hq, Int.toNat_zero, pow_zero, mul_one]
    have hrep := represents_ofScientific (n := m * 2 ^ q.toNat) (by positivity) le_rfl (by decide)
    rw [hmul] at hrep
    rw [hexact]
    exact hrep.unique (represents_self hc)

/-- Whatever decimal the search ends with, it is read back. -/
theorem toFloat_shortest (hc : Canonical (.finite .positive m q h)) :
    (shortest m q h).toFloat = magnitude m q h := by
  unfold shortest
  cases hs : shortest? m q h with
  | none => exact toFloat_exact hc
  | some d => exact toFloat_of_shortest? hs

theorem exponent_of_mem_neighbours {e : ℤ} (hd : d ∈ neighbours m q e) : d.exponent = e := by
  unfold neighbours at hd
  dsimp only at hd
  split_ifs at hd <;> simp only [List.mem_cons, List.not_mem_nil, or_false] at hd <;>
    rcases hd with rfl | rfl <;> rfl

/-- No digits behind the point are searched for a number that is a multiple of one. -/
theorem exponent_shortest_nonneg (hq : 0 ≤ q) : 0 ≤ (shortest m q h).exponent := by
  unfold shortest
  cases hs : shortest? m q h with
  | none => exact le_min hq le_rfl
  | some d =>
    obtain ⟨e, he, hd⟩ := List.exists_of_findSome?_eq_some hs
    obtain ⟨i, hi, rfl⟩ := List.mem_map.mp he
    have hlt := List.mem_range.mp hi
    rw [Option.getD_some, exponent_of_mem_neighbours (List.mem_of_find?_eq_some hd)]
    omega

/-! ### Decimals without a point -/

theorem level_toFloat (he : 0 ≤ d.exponent) (h : d.digits = 0 ∨ d.exponent ≤ 2048) :
    Cost.isNumber d.toFloat = true ∧
      level d.toFloat = stored (d.digits * 10 ^ d.exponent.toNat * whole : ℕ) := by
  refine level_of_stores (f := UnpackedFloat.ofScientific .binary64 d.digits d.exponent) ?_ rfl
  rcases Nat.eq_zero_or_pos d.digits with hz | hpos
  · rw [hz, zero_mul, zero_mul, UnpackedFloat.ofScientific, dif_pos rfl]
    exact stores_zero .positive
  · rw [stored_natCast]
    exact (represents_ofScientific hpos he (h.resolve_left hpos.ne')).stores

theorem digits_eq_zero_or_exponent_le (hf : Cost.isFinite d.toFloat = true) :
    d.digits = 0 ∨ d.exponent ≤ 2048 := by
  by_contra h
  obtain ⟨hd, he⟩ := not_or.mp h
  have hinf : UnpackedFloat.ofScientific .binary64 d.digits d.exponent = .infinity .positive := by
    rw [UnpackedFloat.ofScientific, dif_neg hd, exponentBits_eq, if_pos (by omega)]
  change (Float.Model.pack (UnpackedFloat.ofScientific ..)).unpack.isFinite = true at hf
  rw [hinf] at hf
  exact Bool.false_ne_true hf

theorem level_toFloat_of_isFinite (he : 0 ≤ d.exponent) (hf : Cost.isFinite d.toFloat = true) :
    level d.toFloat = rounded (d.digits * 10 ^ d.exponent.toNat * whole) := by
  obtain ⟨hn, hl⟩ := level_toFloat he (digits_eq_zero_or_exponent_le hf)
  have hlt := ((isFinite_iff_level hn).mp hf).2
  rw [hl, stored_natCast] at hlt ⊢
  rw [min_eq_left]
  omega

/-- A decimal without a point is an integral number or an infinite one. -/
theorem exists_integer? (he : 0 ≤ d.exponent) (hf : Cost.isFinite d.toFloat = true) :
    ∃ z, integer? d.toFloat = some z := by
  obtain ⟨z, hz⟩ := whole_dvd_rounded (d.digits * 10 ^ d.exponent.toNat)
  refine ⟨z, integer?_eq_some.mpr ⟨hf, ?_⟩⟩
  rw [level_toFloat_of_isFinite he hf, hz, Nat.cast_mul, mul_comm]

/-! ### Numbers with a sign -/

theorem level_magnitude {m : ℕ} {q : ℤ} (hm : 0 < m)
    (hc : Canonical (.finite .positive m q hm)) (hr : q ≤ 971) :
    Cost.isFinite (magnitude m q hm) = true ∧ level (magnitude m q hm) = multiple m q := by
  obtain ⟨hn, hl⟩ := level_of_stores (x := magnitude m q hm)
    (stores_self (f := .finite .positive m q hm) hc hr nofun) rfl
  refine ⟨(isFinite_iff_level hn).mpr ?_, hl⟩
  have hlt := multiple_lt_bound hc.1 hr
  rw [hl]
  change _ < (multiple m q : ℤ) ∧ (multiple m q : ℤ) < _
  omega

/-- A number with its sign taken off and put back. -/
theorem level_sign {s : Sign} {m : ℕ} {q : ℤ} {hm : 0 < m}
    (hx : x.toModel.unpack = .finite s m q hm) :
    let y := if s == .negative then -magnitude m q hm else magnitude m q hm
    Cost.isFinite y = true ∧ level y = level x := by
  obtain ⟨hc, hr⟩ := canonical_unpack x.toModel
  rw [hx] at hc hr
  obtain ⟨hf, hl⟩ := level_magnitude hm hc hr
  have hlevel : level x = s.apply (multiple m q) := by rw [level, hx]; rfl
  rw [hlevel]
  cases s with
  | positive => exact ⟨hf, hl⟩
  | negative =>
    have hn := isNumber_of_isFinite hf
    obtain ⟨hn', hl'⟩ := level_neg hn
    have hrange := (isFinite_iff_level hn).mp hf
    change Cost.isFinite (-magnitude m q hm) = true ∧ level (-magnitude m q hm) = -(multiple m q)
    exact ⟨(isFinite_iff_level hn').mpr (by omega), by rw [hl', hl]⟩

theorem exponent_shortest_neg {s : Sign} {m : ℕ} {q : ℤ} {hm : 0 < m}
    (hu : x.toModel.unpack = .finite s m q hm) (hf : Cost.isFinite x = true)
    (hx : integer? x = none) : (shortest m q hm).exponent < 0 := by
  obtain ⟨hc, hr⟩ := canonical_unpack x.toModel
  rw [hu] at hc hr
  obtain ⟨hf', hl⟩ := level_magnitude hm hc hr
  by_contra he
  obtain ⟨z, hz⟩ := exists_integer? (not_lt.mp he) ((toFloat_shortest hc).symm ▸ hf')
  rw [toFloat_shortest hc] at hz
  have hlevel : level x = s.apply z * whole := by
    rw [level, hu, ← apply_mul, ← (integer?_eq_some.mp hz).2, hl]
    rfl
  exact Option.some_ne_none _ ((integer?_eq_some.mpr ⟨hf, hlevel⟩).symm.trans hx)

/-- The digits of a number beyond `2 ^ 63` are those of an integer beyond it. -/
theorem lt_digitsValue_plain {m : ℕ} {q : ℤ} {hm : 0 < m}
    (hc : Canonical (.finite .positive m q hm)) (hr : q ≤ 971) (hq : 0 ≤ q)
    (h : 2 ^ 63 * whole < multiple m q) :
    2 ^ 63 < digitsValue (shortest m q hm).plain := by
  have he := exponent_shortest_nonneg (h := hm) hq
  obtain ⟨hf, hl⟩ := level_magnitude hm hc hr
  have hlevel := level_toFloat_of_isFinite he (toFloat_shortest hc ▸ hf)
  rw [toFloat_shortest hc, hl, ← (plain_of_nonneg he).2, Int.natCast_inj] at hlevel
  by_contra hle
  have hmono := rounded_mono (Nat.mul_le_mul_right whole (not_lt.mp hle))
  rw [whole_eq_two_pow, ← pow_add, rounded_two_pow, pow_add, ← whole_eq_two_pow] at hmono
  omega

end LinearAssignment.Decimal
