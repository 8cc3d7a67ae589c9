import LinearAssignment.Proofs.Cost.Binary64
import LinearAssignment.Proofs.Cost.Mirror

/-!
Binary64 numbers that are not negative and have the same value. Only a zero can differ from one
alike, by its sign, and calculation does not tell the two zeros apart.
-/

namespace LinearAssignment.Binary64

open Cost Float.Model Float.Model.UnpackedFloat

variable {x y z w : Float}

def Alike (x z : Float) : Prop := Nonneg x ∧ Nonneg z ∧ level x = level z

theorem nonneg_iff_level : Nonneg x ↔ Cost.isNumber x = true ∧ 0 ≤ level x :=
  nonneg_iff.trans (and_congr_right fun _ ↦ value_nonneg)

theorem Alike.isFinite_iff (h : Alike x z) :
    Cost.isFinite x = true ↔ Cost.isFinite z = true := by
  rw [isFinite_iff_level h.1.1, isFinite_iff_level h.2.1.1, h.2.2]

theorem Alike.add (hx : Alike x z) (hy : Alike y w) : Alike (Cost.add x y) (Cost.add z w) := by
  obtain ⟨hxn, hx'⟩ := nonneg_iff_level.mp hx.1
  obtain ⟨hyn, hy'⟩ := nonneg_iff_level.mp hy.1
  obtain ⟨hzn, hz'⟩ := nonneg_iff_level.mp hx.2.1
  obtain ⟨hwn, hw'⟩ := nonneg_iff_level.mp hy.2.1
  refine ⟨nonneg_add hx.1 hy.1, nonneg_add hx.2.1 hy.2.1, ?_⟩
  by_cases h : Cost.isFinite x = true ∧ Cost.isFinite y = true
  · have h' := h
    rw [hx.isFinite_iff, hy.isFinite_iff] at h'
    rw [(level_add h.1 h.2).2, (level_add h'.1 h'.2).2, hx.2.2, hy.2.2]
  · have h' := h
    rw [hx.isFinite_iff, hy.isFinite_iff] at h'
    rw [(level_add_of_infinite hxn hyn hx' hy' (not_and_or.mp h)).2,
      (level_add_of_infinite hzn hwn hz' hw' (not_and_or.mp h')).2]

/-- Without a finite subtrahend a difference is negative or no number. -/
theorem isFinite_of_nonneg_sub (hz : Nonneg z) (hw : Nonneg w) (h : Nonneg (Cost.sub z w)) :
    Cost.isFinite w = true := by
  by_contra hinfinite
  obtain ⟨hzn, hz'⟩ := nonneg_iff_level.mp hz
  obtain ⟨hwn, hw'⟩ := nonneg_iff_level.mp hw
  obtain ⟨hn, hnonneg⟩ := nonneg_iff_level.mp h
  obtain ⟨s, hs⟩ := exists_infinity hwn hinfinite
  rw [level, hs] at hw'
  obtain rfl := eq_positive hw'
  have hcases : UnpackedFloat.sub .binary64 z.toModel.unpack w.toModel.unpack = .notANumber ∨
      UnpackedFloat.sub .binary64 z.toModel.unpack w.toModel.unpack = .infinity .negative := by
    rw [hs]
    unfold level at hz'
    cases hu : z.toModel.unpack with
    | notANumber => exact .inl rfl
    | infinity s =>
      rw [hu] at hz'
      obtain rfl := eq_positive hz'
      exact .inl rfl
    | zero s => exact .inr rfl
    | finite s m e hm => exact .inr rfl
  rcases hcases with hsub | hsub
  · have hmodel : (Cost.sub z w).toModel = Float.Model.pack .notANumber :=
      congrArg Float.Model.pack hsub
    rw [isNumber_iff, hmodel] at hn
    exact hn rfl
  · have hlevel := (level_of_stores (stores_infinity .negative)
      (show (Cost.sub z w).toModel = _ from congrArg Float.Model.pack hsub)).2
    have hb := bound_pos
    rw [hlevel] at hnonneg
    simp only [Sign.apply] at hnonneg
    omega

theorem Alike.sub (hx : Alike x z) (hy : Alike y w) (h : Nonneg (Cost.sub z w)) :
    Alike (Cost.sub x y) (Cost.sub z w) := by
  have hw := isFinite_of_nonneg_sub hx.2.1 hy.2.1 h
  have hy' := hy.isFinite_iff.mpr hw
  have hlevel : level (Cost.sub x y) = level (Cost.sub z w) := by
    by_cases hz : Cost.isFinite z = true
    · rw [(level_sub (hx.isFinite_iff.mpr hz) hy').2, (level_sub hz hw).2, hx.2.2, hy.2.2]
    · rw [(level_sub_of_infinite hx.1.1 (hx.isFinite_iff.not.mpr hz) hy').2,
        (level_sub_of_infinite hx.2.1.1 hz hw).2, hx.2.2]
  refine ⟨nonneg_iff_level.mpr ⟨isNumber_sub hx.1.1 hy', ?_⟩, h, hlevel⟩
  rw [hlevel]
  exact (nonneg_iff_level.mp h).2

theorem mirrors_alike : Mirrors Alike Nonneg where
  zero := ⟨by decide, by decide, rfl⟩
  isFinite hx := Bool.eq_iff_iff.mpr hx.isFinite_iff
  lt_iff hx hy := by
    change Cost.lt _ _ ↔ Cost.lt _ _
    rw [lt_iff_level hx.1.1 hy.1.1, lt_iff_level hx.2.1.1 hy.2.1.1, hx.2.2, hy.2.2]
  beq_eq hx hy := by
    change Cost.beq _ _ = Cost.beq _ _
    rw [Bool.eq_iff_iff, beq_iff_level hx.1.1 hy.1.1, beq_iff_level hx.2.1.1 hy.2.1.1, hx.2.2,
      hy.2.2]
  add hx hy _ := hx.add hy
  sub hx hy h := hx.sub hy h

end LinearAssignment.Binary64
