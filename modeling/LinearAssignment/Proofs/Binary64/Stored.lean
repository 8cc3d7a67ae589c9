import LinearAssignment.Proofs.Binary64.Rounding

/-!
Numbers as they are stored.

Storing a canonical number and reading it back changes nothing, unless its exponent is beyond the
range: then it has become infinite.
-/

namespace LinearAssignment.Binary64

open Float.Model Float.Model.UnpackedFloat

def InRange : UnpackedFloat → Prop
  | .finite _ _ e _ => e ≤ 971
  | _ => True

theorem exponentBias_eq : ((Format.binary64.exponentBias : ℕ) : ℤ) = 1023 := rfl

theorem ofBitVec_toBitVec (s : Sign) : Sign.ofBitVec s.toBitVec = s := by cases s <;> rfl

theorem unpackSign_packComponents {spec : Format} (s : Sign) (x : BitVec spec.exponentBits)
    (v : BitVec spec.mantissaBitsWithoutImplicit) :
    unpackSign (packComponents spec s x v) = s.toBitVec := by
  apply BitVec.eq_of_getElem_eq
  intro i hi
  obtain rfl : i = 0 := by omega
  simp [unpackSign, packComponents, BitVec.getLsbD_append, BitVec.getElem_append]

theorem toNat_one_append (v : BitVec 52) : (1#1 ++ v).toNat = 2 ^ 52 + v.toNat := by
  rw [BitVec.toNat_append, ← Nat.shiftLeft_add_eq_or_of_lt v.isLt]
  rfl

theorem unpack_normal (s : Sign) {x : BitVec 11} (v : BitVec 52) (h : x ≠ -1#11) (h₀ : x ≠ 0#11)
    {m : ℕ} (hv : 2 ^ 52 + v.toNat = m) {e : ℤ} (hx : x.toNat - 1075 = e) (hm : 0 < m) :
    UnpackedFloat.unpack .binary64 (packComponents .binary64 s x v) = .finite s m e hm := by
  subst hv hx
  unfold UnpackedFloat.unpack
  simp only [unpackExponent_packComponents, unpackMantissa_packComponents,
    unpackSign_packComponents, ofBitVec_toBitVec, h, h₀, ↓reduceIte, toNat_one_append]
  congr 1

theorem unpack_subnormal (s : Sign) {v : BitVec 52} {m : ℕ} (hv : v.toNat = m) (hm : 0 < m) :
    UnpackedFloat.unpack .binary64 (packComponents .binary64 s 0#11 v) =
      .finite s m (-1074) hm := by
  subst hv
  have h : v ≠ 0#52 := by rintro rfl; simp at hm
  unfold UnpackedFloat.unpack
  simp only [unpackExponent_packComponents, unpackMantissa_packComponents,
    unpackSign_packComponents, ofBitVec_toBitVec, h, ↓reduceDIte]
  rfl

theorem canonical_unpack (x : Float.Model) : Canonical x.unpack ∧ InRange x.unpack := by
  have hv := (@unpackMantissa .binary64 x.toBits.toBitVec).isLt
  have hx := (@unpackExponent .binary64 x.toBits.toBitVec).isLt
  unfold Float.Model.unpack UnpackedFloat.unpack
  dsimp only
  split_ifs with h h' h₀ h'
  · exact ⟨trivial, trivial⟩
  · exact ⟨trivial, trivial⟩
  · exact ⟨trivial, trivial⟩
  · rw [h₀]
    exact ⟨⟨hv.trans (by decide), le_rfl, .inr rfl⟩, show (-1074 : ℤ) ≤ 971 by decide⟩
  · have hx₀ : (@unpackExponent .binary64 x.toBits.toBitVec).toNat ≠ 0 :=
      fun e ↦ h₀ (BitVec.eq_of_toNat_eq e)
    have hx₁ : (@unpackExponent .binary64 x.toBits.toBitVec).toNat ≠ 2047 :=
      fun e ↦ h (BitVec.eq_of_toNat_eq e)
    change _ < 2 ^ 52 at hv
    change _ < 2 ^ 11 at hx
    simp only [Canonical, InRange, toNat_one_append, exponentBias_eq]
    omega

/-- Beyond the range of exponents numbers become infinite. -/
theorem unpack_pack_of_lt {s : Sign} {m : ℕ} {e : ℤ} {hm : 0 < m} (h : 971 < e) :
    (Float.Model.pack (.finite s m e hm)).unpack = .infinity s := by
  have hp : UnpackedFloat.pack .binary64 (.finite s m e hm) = packedInfinity .binary64 s := by
    refine if_pos ?_
    change 2 ^ 11 ≤ (e + (1023 : ℕ) + (52 : ℕ)).toNat + 1
    omega
  change UnpackedFloat.unpack .binary64 (UnpackedFloat.pack .binary64 _) = _
  rw [hp]
  cases s <;> rfl

theorem pack_of_le {s : Sign} {m : ℕ} {e : ℤ} {hm : 0 < m} (h : e ≤ 971) :
    UnpackedFloat.pack .binary64 (.finite s m e hm) =
      if m.log2 = 52 then
        packComponents .binary64 s (BitVec.ofNat 11 (e + 1075).toNat) (BitVec.ofNat 52 m)
      else packComponents .binary64 s 0#11 (BitVec.ofNat 52 m) := by
  have hx : (e + (1023 : ℕ) + (52 : ℕ)).toNat = (e + 1075).toNat := by omega
  have hl : m.log2 + 1 = 1 + 52 ↔ m.log2 = 52 := by omega
  refine (if_neg ?_).trans ?_
  · change ¬2 ^ 11 ≤ (e + (1023 : ℕ) + (52 : ℕ)).toNat + 1
    omega
  · change (if m.log2 + 1 = 1 + 52 then packComponents .binary64 s (BitVec.ofNat 11
      (e + (1023 : ℕ) + (52 : ℕ)).toNat) _ else _) = _
    simp only [hx, hl]

theorem unpack_pack_finite {s : Sign} {m : ℕ} {e : ℤ} {hm : 0 < m}
    (hc : Canonical (.finite s m e hm)) (hr : e ≤ 971) :
    (Float.Model.pack (.finite s m e hm)).unpack = .finite s m e hm := by
  obtain ⟨hlt, hle, hn⟩ := hc
  change UnpackedFloat.unpack .binary64 (UnpackedFloat.pack .binary64 _) = _
  rw [pack_of_le hr]
  by_cases hb : 2 ^ 52 ≤ m
  · have hl : m.log2 = 52 := (Nat.log2_eq_iff hm.ne').mpr ⟨hb, hlt⟩
    have hx : (BitVec.ofNat 11 (e + 1075).toNat).toNat = (e + 1075).toNat := by
      rw [BitVec.toNat_ofNat, Nat.mod_eq_of_lt (by omega)]
    have hx₁ : BitVec.ofNat 11 (e + 1075).toNat ≠ -1#11 := fun h ↦ by
      have := hx.symm.trans (congrArg BitVec.toNat h)
      change _ = 2047 at this
      omega
    have hx₀ : BitVec.ofNat 11 (e + 1075).toNat ≠ 0#11 := fun h ↦ by
      have := hx.symm.trans (congrArg BitVec.toNat h)
      change _ = 0 at this
      omega
    rw [if_pos hl]
    refine unpack_normal s _ hx₁ hx₀ ?_ ?_ hm
    · rw [BitVec.toNat_ofNat]
      omega
    · rw [hx]
      omega
  · have hl : m.log2 < 52 := (Nat.log2_lt hm.ne').mpr (by omega)
    obtain rfl : e = -1074 := hn.resolve_left hb
    rw [if_neg hl.ne]
    refine unpack_subnormal s ?_ hm
    rw [BitVec.toNat_ofNat, Nat.mod_eq_of_lt (by omega)]

theorem unpack_pack {f : UnpackedFloat} (hc : Canonical f) (hr : InRange f) :
    (Float.Model.pack f).unpack = f := by
  cases f with
  | notANumber => rfl
  | infinity s => cases s <;> rfl
  | zero s => cases s <;> rfl
  | finite s m e hm => exact unpack_pack_finite hc hr

end LinearAssignment.Binary64
