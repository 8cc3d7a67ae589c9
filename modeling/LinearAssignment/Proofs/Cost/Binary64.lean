import LinearAssignment.Proofs.Binary64.Sums
import LinearAssignment.Proofs.Cost.Lawful

/-!
Binary64 numbers have values: the laws of `Cost.Lawful` hold of rounded arithmetic.
-/

namespace LinearAssignment.Binary64

open Float.Model Float.Model.UnpackedFloat

/-- How many times the least positive number a number is. -/
def level (x : Float) : ℤ := units x.toModel.unpack

variable {x y z : Float}

theorem isNumber_iff : Cost.isNumber x = true ↔ x.toModel.unpack ≠ .notANumber := by
  change (x.toModel.unpack.compare x.toModel.unpack == some .eq) = true ↔ _
  obtain ⟨hc, hr⟩ := canonical_unpack x.toModel
  by_cases h : x.toModel.unpack = .notANumber
  · rw [h]
    exact iff_of_false (by decide) (by simp)
  · rw [compare_eq hc hr hc hr h h, compare_eq_iff_eq.mpr rfl]
    exact iff_of_true (by decide) h

theorem compare_level (hx : Cost.isNumber x = true) (hy : Cost.isNumber y = true) :
    x.toModel.unpack.compare y.toModel.unpack = some (compare (level x) (level y)) := by
  obtain ⟨hc, hr⟩ := canonical_unpack x.toModel
  obtain ⟨hc', hr'⟩ := canonical_unpack y.toModel
  exact compare_eq hc hr hc' hr' (isNumber_iff.mp hx) (isNumber_iff.mp hy)

theorem lt_iff_level (hx : Cost.isNumber x = true) (hy : Cost.isNumber y = true) :
    Cost.lt x y ↔ level x < level y := by
  change decide ((x.toModel.unpack.compare y.toModel.unpack == some .lt) = true) = true ↔ _
  rw [decide_eq_true_iff, compare_level hx hy, beq_iff_eq, Option.some_inj, compare_lt_iff_lt]

theorem beq_iff_level (hx : Cost.isNumber x = true) (hy : Cost.isNumber y = true) :
    Cost.beq x y = true ↔ level x = level y := by
  change (x.toModel.unpack.compare y.toModel.unpack == some .eq) = true ↔ _
  rw [compare_level hx hy, beq_iff_eq, Option.some_inj, compare_eq_iff_eq]

theorem isNumber_of_isFinite (h : Cost.isFinite x = true) : Cost.isNumber x = true := by
  change x.toModel.unpack.isFinite = true at h
  exact isNumber_iff.mpr fun hn ↦ by rw [hn] at h; cases h

theorem isFinite_iff_level (hx : Cost.isNumber x = true) :
    Cost.isFinite x = true ↔ -(bound : ℤ) < level x ∧ level x < bound := by
  obtain ⟨hc, hr⟩ := canonical_unpack x.toModel
  exact isFinite_iff hc hr (isNumber_iff.mp hx)

theorem exists_infinity (hx : Cost.isNumber x = true) (h : ¬Cost.isFinite x = true) :
    ∃ s, x.toModel.unpack = .infinity s := eq_infinity (isNumber_iff.mp hx) h

theorem stored_level (x : Float) : stored (level x) = level x := by
  obtain ⟨hc, hr⟩ := canonical_unpack x.toModel
  exact stored_units hc hr

theorem level_of_stores {f : UnpackedFloat} {i : ℤ} (h : Stores f i)
    (hx : x.toModel = Float.Model.pack f) : Cost.isNumber x = true ∧ level x = i := by
  rw [isNumber_iff, level, hx]
  exact h

theorem stores_infinity (s : Sign) : Stores (.infinity s) (s.apply bound) :=
  stores_self (f := .infinity s) trivial trivial nofun

theorem level_sub (hx : Cost.isFinite x = true) (hy : Cost.isFinite y = true) :
    Cost.isNumber (Cost.sub x y) = true ∧
      level (Cost.sub x y) = stored (level x - level y) := by
  obtain ⟨hc, hr⟩ := canonical_unpack x.toModel
  obtain ⟨hc', hr'⟩ := canonical_unpack y.toModel
  exact level_of_stores (stores_sub hc hr hc' hr' hx hy) rfl

theorem level_add (hx : Cost.isFinite x = true) (hy : Cost.isFinite y = true) :
    Cost.isNumber (Cost.add x y) = true ∧
      level (Cost.add x y) = stored (level x + level y) := by
  obtain ⟨hc, hr⟩ := canonical_unpack x.toModel
  obtain ⟨hc', hr'⟩ := canonical_unpack y.toModel
  exact level_of_stores (stores_add hc hr hc' hr' hx hy) rfl

/-- A finite number taken from an infinite one leaves it as it is. -/
theorem level_sub_of_infinite (hx : Cost.isNumber x = true) (hx' : ¬Cost.isFinite x = true)
    (hy : Cost.isFinite y = true) :
    Cost.isNumber (Cost.sub x y) = true ∧ level (Cost.sub x y) = level x := by
  obtain ⟨s, hs⟩ := exists_infinity hx hx'
  have hsub : UnpackedFloat.sub .binary64 x.toModel.unpack y.toModel.unpack = .infinity s := by
    change y.toModel.unpack.isFinite = true at hy
    rw [hs]
    cases hu : y.toModel.unpack with
    | zero s' => rfl
    | finite s' m e hm => rfl
    | _ => simp [hu, UnpackedFloat.isFinite] at hy
  have hl : level x = s.apply bound := by rw [level, hs]; rfl
  rw [hl]
  exact level_of_stores (stores_infinity s) (congrArg Float.Model.pack hsub)

theorem eq_positive {s : Sign} (h : 0 ≤ units (.infinity s)) : s = .positive := by
  cases s
  · have hb := bound_pos
    simp only [units, Sign.apply] at h
    omega
  · rfl

theorem level_add_of_infinite (hx : Cost.isNumber x = true) (hy : Cost.isNumber y = true)
    (hx' : 0 ≤ level x) (hy' : 0 ≤ level y)
    (h : ¬Cost.isFinite x = true ∨ ¬Cost.isFinite y = true) :
    Cost.isNumber (Cost.add x y) = true ∧ level (Cost.add x y) = bound := by
  have hn := isNumber_iff.mp hx
  have hn' := isNumber_iff.mp hy
  have hadd : UnpackedFloat.add .binary64 x.toModel.unpack y.toModel.unpack =
      .infinity .positive := by
    change ¬x.toModel.unpack.isFinite = true ∨ ¬y.toModel.unpack.isFinite = true at h
    unfold level at hx' hy'
    cases hu : x.toModel.unpack with
    | notANumber => exact absurd hu hn
    | infinity s =>
      obtain rfl := eq_positive (hu ▸ hx')
      cases hu' : y.toModel.unpack with
      | notANumber => exact absurd hu' hn'
      | infinity s' =>
        obtain rfl := eq_positive (hu' ▸ hy')
        rfl
      | _ => rfl
    | zero s =>
      obtain ⟨s', hs'⟩ := exists_infinity hy (h.resolve_left (by simp [hu, UnpackedFloat.isFinite]))
      obtain rfl := eq_positive (hs' ▸ hy')
      rw [hs']
      rfl
    | finite s m e hm =>
      obtain ⟨s', hs'⟩ := exists_infinity hy (h.resolve_left (by simp [hu, UnpackedFloat.isFinite]))
      obtain rfl := eq_positive (hs' ▸ hy')
      rw [hs']
      rfl
  exact level_of_stores (stores_infinity .positive) (congrArg Float.Model.pack hadd)

theorem level_sub_self (hx : Cost.isFinite x = true) : level (Cost.sub x x) = 0 := by
  rw [(level_sub hx hx).2, sub_self, stored_zero]

theorem isNumber_sub (hx : Cost.isNumber x = true) (hy : Cost.isFinite y = true) :
    Cost.isNumber (Cost.sub x y) = true := by
  by_cases h : Cost.isFinite x = true
  · exact (level_sub h hy).1
  · exact (level_sub_of_infinite hx h hy).1

theorem level_sub_le (hx : Cost.isNumber x = true) (hy : Cost.isFinite y = true)
    (h : 0 ≤ level y) : level (Cost.sub x y) ≤ level x := by
  by_cases hx' : Cost.isFinite x = true
  · calc level (Cost.sub x y) = stored (level x - level y) := (level_sub hx' hy).2
      _ ≤ stored (level x) := stored_mono (by omega)
      _ = level x := stored_level x
  · exact (level_sub_of_infinite hx hx' hy).2.le

theorem level_sub_of_zero (hx : Cost.isNumber x = true) (hy : Cost.isNumber y = true)
    (h : level y = 0) : level (Cost.sub x y) = level x := by
  have hy' : Cost.isFinite y = true := by
    have := bound_pos
    exact (isFinite_iff_level hy).mpr (by omega)
  by_cases hx' : Cost.isFinite x = true
  · rw [(level_sub hx' hy').2, h, sub_zero, stored_level]
  · exact (level_sub_of_infinite hx hx' hy').2

theorem level_mem_bound (x : Float) : -(bound : ℤ) ≤ level x ∧ level x ≤ bound := by
  have hb := bound_pos
  by_cases hx : Cost.isNumber x = true
  · by_cases hx' : Cost.isFinite x = true
    · have := (isFinite_iff_level hx).mp hx'
      omega
    · obtain ⟨s, hs⟩ := exists_infinity hx hx'
      rw [level, hs]
      cases s <;> simp only [units, Sign.apply] <;> omega
  · have hn : x.toModel.unpack = .notANumber := not_not.mp (isNumber_iff.not.mp hx)
    rw [level, hn]
    simp only [units]
    omega

theorem level_sub_mono (hx : Cost.isNumber x = true) (hy : Cost.isNumber y = true)
    (hz : Cost.isFinite z = true) (h : level x ≤ level y) :
    level (Cost.sub x z) ≤ level (Cost.sub y z) := by
  have hxb := level_mem_bound (Cost.sub x z)
  have hyb := level_mem_bound (Cost.sub y z)
  have hinf {w : Float} (hw : Cost.isNumber w = true) (hw' : ¬Cost.isFinite w = true) :
      level w = -bound ∨ level w = bound := by
    have := level_mem_bound w
    have := (isFinite_iff_level hw).not.mp hw'
    omega
  by_cases hx' : Cost.isFinite x = true <;> by_cases hy' : Cost.isFinite y = true
  · rw [(level_sub hx' hz).2, (level_sub hy' hz).2]
    exact stored_mono (by omega)
  · have hlt := (isFinite_iff_level hx).mp hx'
    rw [(level_sub_of_infinite hy hy' hz).2]
    rcases hinf hy hy' with e | e <;> omega
  · have hlt := (isFinite_iff_level hy).mp hy'
    rw [(level_sub_of_infinite hx hx' hz).2]
    rcases hinf hx hx' with e | e <;> omega
  · rw [(level_sub_of_infinite hx hx' hz).2, (level_sub_of_infinite hy hy' hz).2]
    exact h

theorem level_add_nonneg (hx : Cost.isNumber x = true) (hy : Cost.isNumber y = true)
    (hx' : 0 ≤ level x) (hy' : 0 ≤ level y) :
    Cost.isNumber (Cost.add x y) = true ∧ 0 ≤ level (Cost.add x y) := by
  by_cases h : Cost.isFinite x = true ∧ Cost.isFinite y = true
  · obtain ⟨hn, he⟩ := level_add h.1 h.2
    rw [he, ← stored_zero]
    exact ⟨hn, stored_mono (by omega)⟩
  · obtain ⟨hn, he⟩ := level_add_of_infinite hx hy hx' hy' (not_and_or.mp h)
    rw [he]
    exact ⟨hn, Int.natCast_nonneg _⟩

theorem isFinite_pack {f : UnpackedFloat} (h : f.isFinite = false) :
    (Float.Model.pack f).unpack.isFinite = false := by
  cases f with
  | notANumber => rfl
  | infinity s => cases s <;> rfl
  | _ => cases h

theorem isFinite_mul {f : UnpackedFloat} (g : UnpackedFloat) (h : f.isFinite = false) :
    (UnpackedFloat.mul .binary64 f g).isFinite = false := by
  cases f with
  | notANumber => rfl
  | infinity s => cases g <;> rfl
  | _ => cases h

theorem isFinite_mul_right (f : UnpackedFloat) {g : UnpackedFloat} (h : g.isFinite = false) :
    (UnpackedFloat.mul .binary64 f g).isFinite = false := by
  cases g with
  | notANumber => cases f <;> rfl
  | infinity s => cases f <;> rfl
  | _ => cases h

/-- Both factors of a finite product are finite. -/
theorem isFinite_of_isFinite_mul (h : Cost.isFinite (x.mul z) = true) :
    Cost.isFinite x = true ∧ Cost.isFinite z = true := by
  constructor
  · by_contra hx
    have hx' : x.toModel.unpack.isFinite = false := Bool.eq_false_of_not_eq_true hx
    exact Bool.false_ne_true
      ((isFinite_pack (isFinite_mul z.toModel.unpack hx')).symm.trans h)
  · by_contra hz
    have hz' : z.toModel.unpack.isFinite = false := Bool.eq_false_of_not_eq_true hz
    exact Bool.false_ne_true
      ((isFinite_pack (isFinite_mul_right x.toModel.unpack hz')).symm.trans h)

theorem isFinite_of_times {k : ℕ} (h : Cost.isFinite (Cost.times x k) = true) :
    Cost.isFinite x = true := (isFinite_of_isFinite_mul h).1

/-- The real value, with `2 ^ 1024` for infinity. -/
def value (x : Float) : ℚ := level x / 2 ^ 1074

theorem value_le_value {x y : Float} : value x ≤ value y ↔ level x ≤ level y := by
  rw [value, value, div_le_div_iff_of_pos_right (by positivity), Int.cast_le]

theorem value_inj {x y : Float} : value x = value y ↔ level x = level y := by
  rw [value, value, div_left_inj' (by positivity), Int.cast_inj]

theorem value_eq_zero {x : Float} : value x = 0 ↔ level x = 0 := by
  rw [value, div_eq_zero_iff, or_iff_left (by positivity), Int.cast_eq_zero]

theorem value_nonneg {x : Float} : 0 ≤ value x ↔ 0 ≤ level x := by
  rw [value, le_div_iff₀ (by positivity), zero_mul, Int.cast_nonneg_iff]

instance : Cost.Lawful Float where
  value := value
  value_zero := value_eq_zero.mpr (by decide)
  isFinite_zero := by decide
  isNumber_of_isFinite := isNumber_of_isFinite
  lt_iff hx hy := by
    rw [← not_le, value_le_value, not_le]
    exact lt_iff_level hx hy
  beq_iff hx hy := (beq_iff_level hx hy).trans value_inj.symm
  isNumber_sub := isNumber_sub
  value_sub_self hx := value_eq_zero.mpr (level_sub_self hx)
  value_sub_mono hx hy hz h := value_le_value.mpr (level_sub_mono hx hy hz (value_le_value.mp h))
  value_sub_le hx hy h := value_le_value.mpr (level_sub_le hx hy (value_nonneg.mp h))
  isNumber_add hx hy hx' hy' :=
    (level_add_nonneg hx hy (value_nonneg.mp hx') (value_nonneg.mp hy')).1
  value_add_nonneg hx hy hx' hy' :=
    value_nonneg.mpr (level_add_nonneg hx hy (value_nonneg.mp hx') (value_nonneg.mp hy')).2
  isFinite_of_le hx hy h hxy := by
    have hy' := (isFinite_iff_level (isNumber_of_isFinite hy)).mp hy
    have h := value_nonneg.mp h
    have hxy := value_le_value.mp hxy
    exact (isFinite_iff_level hx).mpr (by omega)
  isFinite_of_times := isFinite_of_times

instance : Cost.Neutral Float where
  value_sub hx hy h := value_inj.mpr (level_sub_of_zero hx hy (value_eq_zero.mp h))

instance : Cost.Separating Float where
  value_eq_of_sub hx hy h := by
    have hsub := (level_sub hx hy).2.symm.trans (value_eq_zero.mp h)
    exact value_inj.mpr (sub_eq_zero.mp (stored_eq_zero hsub))

end LinearAssignment.Binary64
