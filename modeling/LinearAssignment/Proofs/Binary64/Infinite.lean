import LinearAssignment.Proofs.Cost.Binary64

/-!
The infinite binary64 number that no other exceeds. A least number that is kept up from it on is that
of all the numbers met.
-/

namespace LinearAssignment.Binary64

open Cost Float.Model Float.Model.UnpackedFloat

variable {x y : Float}

def infinity : Float := .ofBits 0x7ff0000000000000

/-- The number has but one representation. -/
theorem eq_of_unpack {b : BitVec 64} (h : UnpackedFloat.unpack .binary64 b = .infinity .positive) :
    b = 0x7ff0000000000000#64 := by
  obtain ⟨hexponent, hmantissa, hsign⟩ : @unpackExponent .binary64 b = -1#11 ∧
      @unpackMantissa .binary64 b = 0#52 ∧ @unpackSign .binary64 b = 0#1 := by
    unfold UnpackedFloat.unpack at h
    dsimp only at h
    split_ifs at h with h₁ h₂
    refine ⟨h₁, h₂, ?_⟩
    rcases BitVec.eq_zero_or_eq_one (@unpackSign .binary64 b) with e | e
    · exact e
    · rw [e] at h
      cases h
  have he : b.toNat / 2 ^ 52 % 2 ^ 11 = 2047 := by
    simpa [unpackExponent, Nat.shiftRight_eq_div_pow] using congrArg BitVec.toNat hexponent
  have hm : b.toNat % 2 ^ 52 = 0 := by
    simpa [unpackMantissa] using congrArg BitVec.toNat hmantissa
  have hs : b.toNat / 2 ^ 63 % 2 = 0 := by
    simpa [unpackSign, Nat.shiftRight_eq_div_pow] using congrArg BitVec.toNat hsign
  have hb : b.toNat < 2 ^ 64 := b.isLt
  apply BitVec.eq_of_toNat_eq
  change b.toNat = 0x7ff0000000000000
  omega

theorem isNumber_infinity : isNumber infinity = true := by decide

theorem level_infinity : level infinity = bound := rfl

theorem eq_infinity_iff (hx : isNumber x = true) : x = infinity ↔ level x = bound := by
  constructor
  · rintro rfl
    exact level_infinity
  · intro hlevel
    have hinfinite : ¬isFinite x = true := by
      rw [isFinite_iff_level hx]
      omega
    obtain ⟨s, hs⟩ := exists_infinity hx hinfinite
    obtain rfl : s = .positive := by
      apply eq_positive
      have hb := bound_pos
      rw [← hs]
      change 0 ≤ level x
      omega
    obtain ⟨⟨⟨bits⟩, hv⟩⟩ := x
    obtain rfl := eq_of_unpack hs
    rfl

theorem not_lt_of_not_isNumber (hx : ¬isNumber x = true) : ¬x < y := by
  have hn : x.toModel.unpack = .notANumber := not_not.mp (isNumber_iff.not.mp hx)
  change ¬decide ((x.toModel.unpack.compare y.toModel.unpack == some .lt) = true) = true
  rw [hn]
  exact nofun

theorem lesser_infinity (hx : isNumber x = true) : lesser infinity x = x := by
  unfold lesser
  split_ifs with hlt
  · rfl
  · symm
    rw [eq_infinity_iff hx]
    have hle : level infinity ≤ level x :=
      not_lt.mp ((lt_iff_level hx isNumber_infinity).not.mp hlt)
    exact le_antisymm (level_mem_bound x).2 hle

theorem lesser_of_not_isNumber (hy : ¬isNumber y = true) : lesser x y = x :=
  if_neg (not_lt_of_not_isNumber hy)

/-- What is not a number is passed over. -/
theorem foldl_lesser_infinity (vs : List Float) :
    vs.foldl lesser infinity = (least? vs).getD infinity := by
  have hskip : vs.foldl lesser infinity = (vs.filter isNumber).foldl lesser infinity := by
    rw [List.foldl_filter]
    congr 1
    funext x y
    split_ifs with hy
    · rfl
    · exact lesser_of_not_isNumber hy
  rw [hskip, least?, foldNumbers?]
  cases hnumbers : vs.filter isNumber with
  | nil => rfl
  | cons v rest =>
    have hv : isNumber v = true := List.of_mem_filter (hnumbers ▸ List.mem_cons_self)
    rw [List.foldl_cons, lesser_infinity hv]
    rfl

end LinearAssignment.Binary64
