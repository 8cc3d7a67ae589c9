import LinearAssignment.Proofs.Binary64.Units

/-!
Sums and differences of stored numbers.

Of finite numbers they are the sums and differences of their integers, taken to the nearest stored
number; and that is a monotone map which leaves stored numbers as they are.
-/

namespace LinearAssignment.Binary64

open Float.Model Float.Model.UnpackedFloat

/-- The integer of the stored number nearest to one that is `z` times the least positive number. -/
def stored (z : ℤ) : ℤ := z.sign * (min (rounded z.natAbs) bound : ℕ)

@[simp] theorem stored_zero : stored 0 = 0 := rfl

theorem stored_natCast (k : ℕ) : stored k = (min (rounded k) bound : ℕ) := by
  rcases Nat.eq_zero_or_pos k with rfl | h
  · simp
  · rw [stored, Int.sign_eq_one_of_pos (Int.natCast_pos.mpr h), Int.natAbs_natCast, one_mul]

theorem stored_neg (z : ℤ) : stored (-z) = -stored z := by
  rw [stored, stored, Int.sign_neg, Int.natAbs_neg, neg_mul]

theorem stored_apply (s : Sign) (k : ℕ) :
    stored (s.apply k) = s.apply (min (rounded k) bound : ℕ) := by
  cases s
  · exact (stored_neg _).trans (congrArg Neg.neg (stored_natCast k))
  · exact stored_natCast k

theorem stored_mono {z w : ℤ} (h : z ≤ w) : stored z ≤ stored w := by
  have hnat {k l : ℕ} (h : k ≤ l) : stored k ≤ stored l := by
    rw [stored_natCast, stored_natCast]
    exact Int.ofNat_le.mpr (min_le_min_right _ (rounded_mono h))
  have hpos (k : ℕ) : 0 ≤ stored k := by
    rw [stored_natCast]
    exact Int.natCast_nonneg _
  obtain ⟨k, rfl | rfl⟩ := z.eq_nat_or_neg <;> obtain ⟨l, rfl | rfl⟩ := w.eq_nat_or_neg
  · exact hnat (by omega)
  · obtain ⟨rfl, rfl⟩ : k = 0 ∧ l = 0 := by omega
    rfl
  · rw [stored_neg]
    exact (neg_nonpos.mpr (hpos k)).trans (hpos l)
  · rw [stored_neg, stored_neg]
    exact neg_le_neg (hnat (by omega))

theorem stored_one : stored 1 = 1 := by
  have hrounded : rounded 1 = 1 := rounded_two_pow 0
  have hone := stored_natCast 1
  rwa [hrounded, min_eq_left bound_pos] at hone

/-- Nothing but zero is stored as zero. -/
theorem stored_eq_zero {z : ℤ} (h : stored z = 0) : z = 0 := by
  rcases lt_trichotomy z 0 with hz | hz | hz
  · have hle : stored z ≤ stored (-1) := stored_mono (by omega)
    rw [stored_neg, stored_one] at hle
    omega
  · exact hz
  · have hle : stored 1 ≤ stored z := stored_mono (by omega)
    rw [stored_one] at hle
    omega

theorem rounded_bound : rounded bound = bound := by
  unfold bound
  generalize 2098 = t
  exact rounded_two_pow t

/-- Stored numbers are not rounded again. -/
theorem stored_units {f : UnpackedFloat} (hc : Canonical f) (hr : InRange f) :
    stored (units f) = units f := by
  cases f with
  | notANumber => exact stored_zero
  | zero s => exact stored_zero
  | infinity s => rw [units, stored_apply, rounded_bound, min_self]
  | finite s m e hm =>
    have hm' : rounded (multiple m e) = multiple m e := rounded_mul_two_pow hc.1 _
    rw [units, stored_apply, hm', min_eq_left (multiple_lt_bound hc.1 hr).le]

/-- Once stored, `f` is `z` times the least positive number. -/
def Stores (f : UnpackedFloat) (z : ℤ) : Prop :=
  (Float.Model.pack f).unpack ≠ .notANumber ∧ units (Float.Model.pack f).unpack = z

theorem stores_self {f : UnpackedFloat} (hc : Canonical f) (hr : InRange f)
    (hn : f ≠ .notANumber) : Stores f (units f) := by
  rw [Stores, unpack_pack hc hr]
  exact ⟨hn, rfl⟩

theorem stores_zero (s : Sign) : Stores (.zero s) (stored 0) :=
  stores_self (f := .zero s) trivial trivial nofun

theorem Represents.stores {f : UnpackedFloat} {s : Sign} {k : ℕ} (h : Represents f s k) :
    Stores f (s.apply (min k bound : ℕ)) := by
  obtain ⟨q, e, hq, rfl, hc, rfl⟩ := h
  rcases le_or_gt e 971 with he | he
  · rw [min_eq_left (multiple_lt_bound hc.1 he).le]
    exact stores_self hc he nofun
  · have hn : 2 ^ 52 ≤ q := hc.2.2.resolve_right (by omega)
    rw [min_eq_right (bound_le_multiple hn he), Stores, unpack_pack_of_lt he]
    exact ⟨nofun, rfl⟩

/-- An exact result is stored as the number nearest to it. -/
theorem stores_normalize (m : ℤ) {e : ℤ} (he : -1074 ≤ e) :
    Stores (UnpackedFloat.normalize .binary64 m e .positive)
      (stored (m * 2 ^ (e + 1074).toNat)) := by
  have hcast (k : ℕ) : (k : ℤ) * 2 ^ (e + 1074).toNat = multiple k e := by
    rw [multiple]
    push_cast
    rfl
  obtain ⟨k, hk⟩ := m.eq_nat_or_neg
  rcases Nat.eq_zero_or_pos k with rfl | hpos
  · obtain rfl : m = 0 := by omega
    rw [zero_mul]
    exact stores_zero .positive
  · obtain rfl | rfl := hk
    · have hgt : compare (k : ℤ) 0 = .gt := Int.compare_eq_gt.mpr (Int.natCast_pos.mpr hpos)
      rw [UnpackedFloat.normalize, hgt, hcast, stored_natCast]
      exact (round_eq .positive hpos he).stores
    · have hlt : compare (-(k : ℤ)) 0 = .lt := Int.compare_eq_lt.mpr (by omega)
      rw [UnpackedFloat.normalize, hlt, neg_mul, hcast, stored_neg, stored_natCast, neg_neg]
      exact (round_eq .negative hpos he).stores

theorem neg_apply (s : Sign) (z : ℤ) : (-s).apply z = -s.apply z := by
  cases s
  · exact (neg_neg z).symm
  · rfl

theorem apply_mul (s : Sign) (z w : ℤ) : s.apply (z * w) = s.apply z * w := by
  cases s
  · exact (neg_mul z w).symm
  · rfl

theorem units_neg (f : UnpackedFloat) : units f.neg = -units f := by
  cases f with
  | notANumber => rfl
  | zero s => rfl
  | infinity s => exact neg_apply s bound
  | finite s m e hm => exact neg_apply s (multiple m e)

theorem canonical_neg {f : UnpackedFloat} (hc : Canonical f) (hr : InRange f) :
    Canonical f.neg ∧ InRange f.neg := by
  cases f with
  | finite s m e hm => exact ⟨hc, hr⟩
  | _ => exact ⟨trivial, trivial⟩

theorem sub_eq_add_neg (f g : UnpackedFloat) :
    UnpackedFloat.sub .binary64 f g = UnpackedFloat.add .binary64 f g.neg := by
  cases f <;> cases g <;> try rfl
  case finite.finite s m e hm s' m' e' hm' =>
    simp only [UnpackedFloat.sub, UnpackedFloat.add, UnpackedFloat.neg, neg_apply,
      Int.sub_eq_add_neg]

theorem decreaseExponent_eq (m : ℕ) {e d : ℤ} (hd : -1074 ≤ d) (h : d ≤ e) :
    ((decreaseExponent m e d).1 : ℤ) * 2 ^ (d + 1074).toNat = multiple m e := by
  have he : (e + 1074).toNat = (e - d).toNat + (d + 1074).toNat := by omega
  rw [decreaseExponent, multiple, Nat.shiftLeft_eq, he, pow_add]
  push_cast
  ring

/-- The sum of two finite numbers is stored as the number nearest to it. -/
theorem stores_add {f g : UnpackedFloat} (hf : Canonical f) (hf' : InRange f) (hg : Canonical g)
    (hg' : InRange g) (h : f.isFinite = true) (h' : g.isFinite = true) :
    Stores (UnpackedFloat.add .binary64 f g) (stored (units f + units g)) := by
  cases f with
  | notANumber => simp [UnpackedFloat.isFinite] at h
  | infinity s => simp [UnpackedFloat.isFinite] at h
  | zero s =>
    cases g with
    | notANumber => simp [UnpackedFloat.isFinite] at h'
    | infinity s' => simp [UnpackedFloat.isFinite] at h'
    | zero s' =>
      have hz : UnpackedFloat.add .binary64 (.zero s) (.zero s') =
          .zero (if s == s' then s else .positive) := by
        cases s <;> cases s' <;> rfl
      rw [hz]
      exact stores_zero _
    | finite s' m' e' hm' =>
      rw [units, zero_add, stored_units hg hg']
      refine stores_self hg hg' ?_
      intro hnan
      cases hnan
  | finite s m e hm =>
    cases g with
    | notANumber => simp [UnpackedFloat.isFinite] at h'
    | infinity s' => simp [UnpackedFloat.isFinite] at h'
    | zero s' =>
      rw [units.eq_def (.zero s'), add_zero, stored_units hf hf']
      refine stores_self hf hf' ?_
      intro hnan
      cases hnan
    | finite s' m' e' hm' =>
      have hmin : -1074 ≤ min e e' := le_min hf.2.1 hg.2.1
      have hsum := stores_normalize (s.apply (decreaseExponent m e (min e e')).1 +
        s'.apply (decreaseExponent m' e' (min e e')).1) hmin
      rw [add_mul, ← apply_mul, ← apply_mul, decreaseExponent_eq m hmin (min_le_left _ _),
        decreaseExponent_eq m' hmin (min_le_right _ _)] at hsum
      exact hsum

theorem isFinite_neg (f : UnpackedFloat) : f.neg.isFinite = f.isFinite := by cases f <;> rfl

theorem stores_sub {f g : UnpackedFloat} (hf : Canonical f) (hf' : InRange f) (hg : Canonical g)
    (hg' : InRange g) (h : f.isFinite = true) (h' : g.isFinite = true) :
    Stores (UnpackedFloat.sub .binary64 f g) (stored (units f - units g)) := by
  obtain ⟨hc, hr⟩ := canonical_neg hg hg'
  rw [sub_eq_add_neg, Int.sub_eq_add_neg, ← units_neg]
  exact stores_add hf hf' hc hr h ((isFinite_neg g).trans h')

end LinearAssignment.Binary64
