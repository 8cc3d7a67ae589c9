import LinearAssignment.Proofs.Decimal.Shortest
import LinearAssignment.Toon.Scalar

/-!
Numbers in documents: what the text of a number is read as.

Up to `2 ^ 63` in magnitude it is read as that number. Beyond, it is a text.
-/

namespace LinearAssignment.Toon.Scalar

open Binary64 Decimal Float.Model Float.Model.UnpackedFloat

variable {c : Char} {cs : List Char} {x : Float}

theorem readTrimmed?_of_bare (hq : cs.head? ≠ some '"') (hl : isLiteral cs = false) :
    readTrimmed? cs = (readNumber? cs).getD (some (.text (String.ofList cs))) := by
  simp only [isLiteral, Bool.or_eq_false_iff, decide_eq_false_iff_not] at hl
  obtain ⟨⟨hn, ht⟩, hf⟩ := hl
  rw [readTrimmed?, if_neg hn, if_neg ht, if_neg hf]
  rintro ds rfl
  exact hq rfl

/-- The first character tells that a text is neither quoted nor a literal. -/
theorem readTrimmed?_cons (hc : c ∉ ['"', 'n', 't', 'f']) (cs : List Char) :
    readTrimmed? (c :: cs) =
      (readNumber? (c :: cs)).getD (some (.text (String.ofList (c :: cs)))) := by
  simp only [List.mem_cons, List.not_mem_nil, or_false, not_or] at hc
  obtain ⟨hq, hn, ht, hf⟩ := hc
  refine readTrimmed?_of_bare (by simpa using hq) ?_
  simp [isLiteral, hn, ht, hf]

theorem exists_digit_of_isNumberLike (h : isNumberLike cs = true) :
    ∃ c ds, cs = c :: ds ∧ c.isDigit = true := by
  cases cs with
  | nil => cases h
  | cons c ds => exact ⟨c, ds, rfl, ((Bool.and_eq_true _ _).mp h).1⟩

theorem ne_of_isDigit (hc : c.isDigit = true) {d : Char} (hd : d.isDigit = false) : c ≠ d := by
  rintro rfl
  exact Bool.false_ne_true (hd.symm.trans hc)

/-- A text that begins like a number is read as one if it is one, and as itself otherwise. -/
theorem readTrimmed?_sign (s : Sign) (h : isNumberLike cs = true) :
    readTrimmed? (signText s ++ cs) = (readUnsigned? (s == .negative) cs).getD
      (some (.text (String.ofList (signText s ++ cs)))) := by
  obtain ⟨c, ds, rfl, hc⟩ := exists_digit_of_isNumberLike h
  have hne {d : Char} (hd : d.isDigit = false) : c ≠ d := ne_of_isDigit hc hd
  cases s with
  | negative => exact readTrimmed?_cons (by decide) (c :: ds)
  | positive =>
    have hmem : c ∉ ['"', 'n', 't', 'f'] := by simp [hne]
    have hnum : readNumber? (c :: ds) = readUnsigned? false (c :: ds) := by
      rw [readNumber?, if_pos hc]
      exact hne rfl
    exact hnum ▸ readTrimmed?_cons hmem ds

/-! ### Integers -/

theorem isNumberLike_of_isDigits (h : isDigits cs = true) : isNumberLike cs = true := by
  obtain ⟨hne, hd⟩ := isDigits_iff.mp h
  obtain ⟨c, ds, rfl⟩ := List.exists_cons_of_ne_nil hne
  simp_all [isNumberLike]

theorem readUnsigned?_of_isDigits (negative : Bool) (h : isDigits cs = true)
    (hz : hasLeadingZero cs = false) :
    readUnsigned? negative cs =
      let i : ℤ := if negative then -digitsValue cs else digitsValue cs
      if -twoPow63 ≤ i ∧ i < twoPow63 then some (some (integer i)) else none := by
  have hpoint : cs.any (· ∈ ['.', 'e', 'E']) = false := by
    obtain ⟨-, hd⟩ := isDigits_iff.mp h
    refine List.any_eq_false.mpr fun c hc ↦ ?_
    have hne {d : Char} (hd' : d.isDigit = false) : c ≠ d := ne_of_isDigit (hd c hc) hd'
    simp [hne]
  rw [readUnsigned?, hz, if_neg Bool.false_ne_true, hpoint, if_neg Bool.false_ne_true, if_pos h]

theorem hasLeadingZero_toDigits (n : ℕ) : hasLeadingZero (Nat.toDigits 10 n) = false := by
  rcases Nat.eq_zero_or_pos n with rfl | hn
  · rfl
  · have hhead := head?_toDigits_ne hn.ne'
    unfold hasLeadingZero
    split
    · simp_all
    · rfl

def signOf (i : ℤ) : Sign := if i < 0 then .negative else .positive

theorem writeInteger_eq (i : ℤ) :
    writeInteger i = signText (signOf i) ++ Nat.toDigits 10 i.natAbs := by
  unfold writeInteger signOf
  split_ifs <;> rfl

/-- The text of an integer is read as the integer if it fits into 64 bits. -/
theorem readTrimmed?_writeInteger (i : ℤ) : readTrimmed? (writeInteger i) =
    some (if -twoPow63 ≤ i ∧ i < twoPow63 then integer i
      else .text (String.ofList (writeInteger i))) := by
  have hd := isDigits_toDigits i.natAbs
  have hvalue : (if signOf i == .negative then -(i.natAbs : ℤ) else i.natAbs) = i := by
    rcases lt_or_ge i 0 with h | h
    · rw [signOf, if_pos h]
      exact (show -(i.natAbs : ℤ) = i by omega)
    · rw [signOf, if_neg (not_lt.mpr h)]
      exact (show (i.natAbs : ℤ) = i by omega)
  rw [writeInteger_eq, readTrimmed?_sign _ (isNumberLike_of_isDigits hd),
    readUnsigned?_of_isDigits _ hd (hasLeadingZero_toDigits _), digitsValue_toDigits,
    ← writeInteger_eq]
  dsimp only
  rw [hvalue]
  split_ifs <;> rfl

theorem toFloat?_integer (i : ℤ) : ∃ y, (integer i).toFloat? = some y ∧
    Cost.isNumber y = true ∧ level y = stored (i * whole) := by
  have hd : (0 : ℤ) ≤ (⟨i.natAbs, 0⟩ : Decimal).exponent := le_rfl
  obtain ⟨hn, hl⟩ := level_toFloat hd (.inr (show (0 : ℤ) ≤ 2048 by decide))
  rw [toFloat?]
  refine ⟨_, rfl, ?_⟩
  have hcast : ((i.natAbs * 10 ^ (0 : ℤ).toNat * whole : ℕ) : ℤ) = i.natAbs * whole := by
    push_cast
    ring
  dsimp only at hn hl ⊢
  rw [hcast] at hl
  split_ifs with h
  · obtain ⟨hn', hl'⟩ := level_neg hn
    rw [hl', hl, ← stored_neg, ← neg_mul, show -(i.natAbs : ℤ) = i by omega]
    exact ⟨hn', rfl⟩
  · rw [hl, show (i.natAbs : ℤ) = i by omega]
    exact ⟨hn, rfl⟩

/-- The greatest integer of 64 bits is nearest to the power of two above it. -/
theorem stored_twoPow63_sub_one : stored ((twoPow63 - 1) * whole) = twoPow63 * whole := by
  obtain ⟨j, hj, hwhole⟩ := exists_whole_eq
  have hrounded : rounded ((2 ^ 63 - 1) * 2 ^ j) = 2 ^ 63 * 2 ^ j := by
    have hlog : spacing ((2 ^ 63 - 1) * 2 ^ j) = 10 + j := by
      rw [spacing, log2_mul_two_pow (by decide), show Nat.log2 (2 ^ 63 - 1) = 62 by decide]
      omega
    rw [rounded, hlog, nearest_mul_two_pow, show nearest (2 ^ 63 - 1) 10 = 2 ^ 53 by decide]
    ring
  have hlt : 2 ^ 63 * 2 ^ j ≤ bound := by
    rw [← pow_add]
    exact two_pow_le_bound (by omega)
  have hcast : (twoPow63 - 1) * (whole : ℤ) = ((2 ^ 63 - 1) * 2 ^ j : ℕ) := by
    rw [hwhole]
    rfl
  rw [hcast, stored_natCast, hrounded, min_eq_left hlt, hwhole]
  rfl

theorem readTrimmed?_of_fits {i : ℤ} (hx : integer? x = some i) (h : |i| ≤ 2 ^ 63) :
    ∃ r y, readTrimmed? (ofFloat x).write = some r ∧ r.toFloat? = some y ∧ (y == x) = true := by
  obtain ⟨hf, hl⟩ := integer?_eq_some.mp hx
  obtain ⟨hlow, hhigh⟩ := abs_le.mp h
  have hpow : twoPow63 = 2 ^ 63 := rfl
  set j := min i (twoPow63 - 1) with hj
  have hscalar : ofFloat x = integer j := by
    rw [ofFloat, hx]
    exact if_pos ⟨by omega, by omega⟩
  obtain ⟨y, hy, hn, hlevel⟩ := toFloat?_integer j
  refine ⟨integer j, y, ?_, hy, beq_of_level hn (isNumber_of_isFinite hf) ?_⟩
  · rw [hscalar, write, readTrimmed?_writeInteger, if_pos (by omega)]
  · rcases hhigh.lt_or_eq with hlt | heq
    · rw [hlevel, show j = i by omega, ← hl, stored_level]
    · rw [hlevel, show j = twoPow63 - 1 by omega, stored_twoPow63_sub_one, hl, heq, hpow]

theorem textChars_of_unpack {s : Sign} {m : ℕ} {q : ℤ} {hm : 0 < m}
    (hx : x.toModel.unpack = .finite s m q hm) :
    textChars x = signText s ++ (shortest m q hm).plain := by
  rw [textChars, hx]

theorem readUnsigned?_of_lt (negative : Bool) (h : isDigits cs = true)
    (hlt : 2 ^ 63 < digitsValue cs) : readUnsigned? negative cs = none := by
  cases hz : hasLeadingZero cs with
  | true => rw [readUnsigned?, hz, if_pos rfl]
  | false =>
    have hpow : twoPow63 = 2 ^ 63 := rfl
    rw [readUnsigned?_of_isDigits negative h hz]
    refine if_neg ?_
    cases negative
    · change ¬(-twoPow63 ≤ (digitsValue cs : ℤ) ∧ (digitsValue cs : ℤ) < twoPow63)
      omega
    · change ¬(-twoPow63 ≤ -(digitsValue cs : ℤ) ∧ -(digitsValue cs : ℤ) < twoPow63)
      omega

/-- Beyond `2 ^ 63` the exponent is not negative. -/
theorem exists_unpack_of_lt {i : ℤ} (hx : integer? x = some i) (h : 2 ^ 63 < |i|) :
    ∃ s m q hm, x.toModel.unpack = .finite s m q hm ∧ 0 ≤ q ∧ 2 ^ 63 * whole < multiple m q := by
  obtain ⟨hf, hl⟩ := integer?_eq_some.mp hx
  have hwhole : (0 : ℤ) < whole := Int.natCast_pos.mpr whole_pos
  have hlarge : 2 ^ 63 * (whole : ℤ) < |level x| := by
    rw [hl, abs_mul, abs_of_pos hwhole]
    exact mul_lt_mul_of_pos_right h hwhole
  obtain ⟨s, m, q, hm, hu⟩ := exists_unpack hf (abs_pos.mp (by omega))
  refine ⟨s, m, q, hm, hu, exponent_nonneg hu (by omega), ?_⟩
  rw [abs_level hu] at hlarge
  omega

theorem readTrimmed?_of_lt {i : ℤ} (hx : integer? x = some i) (h : 2 ^ 63 < |i|) :
    ∃ s, readTrimmed? (ofFloat x).write = some (.text s) := by
  have hpow : twoPow63 = 2 ^ 63 := rfl
  have hpow' : twoPow64 = 2 ^ 64 := rfl
  have habs := lt_abs.mp h
  by_cases hi : 0 ≤ i ∧ i ≤ twoPow64
  · -- The powers of two between the two kinds of integers.
    have hscalar : ofFloat x = integer (min i (twoPow64 - 1)) := by
      rw [ofFloat, hx]
      exact (if_neg (by omega)).trans (if_pos hi)
    rw [hscalar, write, readTrimmed?_writeInteger, if_neg (by omega)]
    exact ⟨_, rfl⟩
  · have hscalar : ofFloat x = number x := by
      rw [ofFloat, hx]
      exact (if_neg (by omega)).trans (if_neg hi)
    obtain ⟨s, m, q, hm, hu, hq, hmul⟩ := exists_unpack_of_lt hx h
    obtain ⟨hc, hr⟩ := canonical_unpack x.toModel
    rw [hu] at hc hr
    have hdigits := (plain_of_nonneg (exponent_shortest_nonneg (h := hm) hq)).1
    rw [hscalar, write, textChars_of_unpack hu,
      readTrimmed?_sign s (isNumberLike_of_isDigits hdigits),
      readUnsigned?_of_lt _ hdigits (lt_digitsValue_plain hc hr hq hmul)]
    exact ⟨_, rfl⟩

/-! ### Fractions -/

theorem isNumberLike_plain (d : Decimal) : isNumberLike d.plain = true := by
  rcases le_or_gt 0 d.exponent with h | h
  · exact isNumberLike_of_isDigits (plain_of_nonneg h).1
  · obtain ⟨whole, fraction, hplain, hwhole, hfraction, -⟩ :=
      exists_point d.digits (-d.exponent).toNat
    obtain ⟨hne, hdigit⟩ := isDigits_iff.mp hwhole
    obtain ⟨c, ds, rfl⟩ := List.exists_cons_of_ne_nil hne
    rw [plain, if_neg (by omega), hplain]
    simp_all [isNumberLike]

theorem readUnsigned?_plain {d : Decimal} (negative : Bool) (h : d.exponent < 0) :
    readUnsigned? negative d.plain =
      some (ofReal? (if negative then -d.toFloat else d.toFloat)) := by
  obtain ⟨whole, fraction, hplain, hwhole, -, -, -, hzero⟩ :=
    exists_point d.digits (-d.exponent).toNat
  have hplain : d.plain = whole ++ '.' :: fraction := by rw [plain, if_neg (by omega), hplain]
  obtain ⟨c, ds, rfl⟩ := List.exists_cons_of_ne_nil (isDigits_iff.mp hwhole).1
  have hlead : hasLeadingZero d.plain = false := by
    rw [hplain]
    rcases hzero with h | h
    · rw [h]
      rfl
    · have hc : c ≠ '0' := by simpa using h
      unfold hasLeadingZero
      split <;> simp_all
  have hpoint : d.plain.any (· ∈ ['.', 'e', 'E']) = true :=
    List.any_eq_true.mpr ⟨'.', by simp [hplain], by decide⟩
  rw [readUnsigned?, hlead, if_neg Bool.false_ne_true, hpoint, if_pos rfl, read?_plain h]
  rfl

theorem readTrimmed?_of_fraction (hf : Cost.isFinite x = true) (hx : integer? x = none) :
    ∃ y, readTrimmed? (ofFloat x).write = some (number y) ∧ (y == x) = true := by
  have hscalar : ofFloat x = number x := by
    rw [ofFloat, hx]
    exact if_pos hf
  obtain ⟨s, m, q, hm, hu⟩ := exists_unpack_of_fraction hf hx
  obtain ⟨hc, -⟩ := canonical_unpack x.toModel
  rw [hu] at hc
  have hread := readUnsigned?_plain (s == .negative) (exponent_shortest_neg hu hf hx)
  obtain ⟨hf', hl⟩ := level_sign hu
  have hnone := (integer?_congr hf' hf hl).trans hx
  refine ⟨_, ?_, beq_of_level (isNumber_of_isFinite hf') (isNumber_of_isFinite hf) hl⟩
  rw [hscalar, write, textChars_of_unpack hu, readTrimmed?_sign s (isNumberLike_plain _),
    hread, toFloat_shortest hc, ofReal?, hnone]
  exact if_pos hf'

theorem ofFloat_of_not_isFinite (h : ¬Cost.isFinite x = true) : ofFloat x = null := by
  have hx : integer? x = none := Option.eq_none_iff_forall_ne_some.mpr fun z hz ↦
    h (integer?_eq_some.mp hz).1
  rw [ofFloat, hx]
  exact if_neg h

/-- The text of a number that is written without being quoted. -/
def IsNumeral (cs : List Char) : Prop := ∃ s ds, isNumberLike ds = true ∧ cs = signText s ++ ds

theorem isNumeral_writeInteger (i : ℤ) : IsNumeral (writeInteger i) :=
  ⟨signOf i, _, isNumberLike_of_isDigits (isDigits_toDigits _), writeInteger_eq i⟩

theorem isNumeral_textChars (hf : Cost.isFinite x = true) : IsNumeral (textChars x) := by
  change x.toModel.unpack.isFinite = true at hf
  unfold textChars
  cases hu : x.toModel.unpack with
  | notANumber => rw [hu] at hf; cases hf
  | infinity s => rw [hu] at hf; cases hf
  | zero s => exact ⟨s, ['0'], rfl, rfl⟩
  | finite s m q hm => exact ⟨s, _, isNumberLike_plain _, rfl⟩

theorem write_ofFloat (x : Float) :
    IsNumeral (ofFloat x).write ∨ (ofFloat x).write = "null".toList := by
  by_cases hf : Cost.isFinite x = true
  · left
    unfold ofFloat
    split
    · split_ifs
      · exact isNumeral_writeInteger _
      · exact isNumeral_writeInteger _
      · exact isNumeral_textChars hf
    · rw [if_pos (show x.isFinite = true from hf)]
      exact isNumeral_textChars hf
  · rw [ofFloat_of_not_isFinite hf]
    exact .inr rfl

/-- A number that fits is read as the same number, and any other as no number. -/
theorem exists_readTrimmed? (x : Float) : ∃ r, readTrimmed? (ofFloat x).write = some r ∧
    (Fits x → ∃ y, r.toFloat? = some y ∧ (y == x) = true) ∧ (¬Fits x → r.toFloat? = none) := by
  by_cases hf : Cost.isFinite x = true
  · -- Fractions are small enough; integral numbers are read as texts if they do not fit.
    cases hx : integer? x with
    | some i =>
      rw [fits_iff_of_integer? hx]
      rcases le_or_gt |i| (2 ^ 63) with hi | hi
      · obtain ⟨r, y, hr, hy, he⟩ := readTrimmed?_of_fits hx hi
        exact ⟨r, hr, fun _ ↦ ⟨y, hy, he⟩, fun h ↦ absurd hi h⟩
      · obtain ⟨s, hs⟩ := readTrimmed?_of_lt hx hi
        exact ⟨.text s, hs, fun h ↦ absurd h (not_le.mpr hi), fun _ ↦ rfl⟩
    | none =>
      obtain ⟨y, hy, he⟩ := readTrimmed?_of_fraction hf hx
      exact ⟨number y, hy, fun _ ↦ ⟨y, rfl, he⟩, fun h ↦ absurd (fits_of_fraction hf hx) h⟩
  · rw [ofFloat_of_not_isFinite hf]
    exact ⟨null, rfl, fun h ↦ absurd h.1 hf, fun _ ↦ rfl⟩

/-- An index that fits is read as itself, and any other as no index. -/
theorem exists_readTrimmed?_integer (i : ℕ) : ∃ r, readTrimmed? (integer i).write = some r ∧
    r.toIndex? = if i < 2 ^ 63 then some i else none := by
  have hpow : twoPow63 = 2 ^ 63 := rfl
  refine ⟨_, readTrimmed?_writeInteger i, ?_⟩
  split_ifs with h hi hi
  · rw [toIndex?, if_pos (Int.natCast_nonneg i), Int.toNat_natCast]
  · omega
  · omega
  · rfl

end LinearAssignment.Toon.Scalar
