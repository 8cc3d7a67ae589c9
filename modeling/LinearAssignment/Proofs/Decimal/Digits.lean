import LinearAssignment.Decimal.Reading
import LinearAssignment.Proofs.Text.Run
import Mathlib.Algebra.Order.Ring.Nat

/-!
Digits: the text of a natural number, and the plain text of a decimal. Reading gives back what was
written, with the same digits and the same exponent.
-/

namespace LinearAssignment.Decimal

theorem isDigit_of_mem_toDigits {n : ℕ} {c : Char} (h : c ∈ Nat.toDigits 10 n) :
    c.isDigit = true := Nat.isDigit_of_mem_toDigits (by decide) (by decide) h

theorem isDigits_iff {cs : List Char} :
    isDigits cs = true ↔ cs ≠ [] ∧ ∀ c ∈ cs, c.isDigit = true := by
  simp [isDigits]

theorem isDigits_toDigits (n : ℕ) : isDigits (Nat.toDigits 10 n) = true :=
  isDigits_iff.mpr ⟨Nat.toDigits_ne_nil, fun _ ↦ isDigit_of_mem_toDigits⟩

theorem digitsValue_toDigits (n : ℕ) : digitsValue (Nat.toDigits 10 n) = n :=
  Nat.ofDigitChars_ten_toDigits

theorem digitsValue_zeros_append (k : ℕ) (ds : List Char) :
    digitsValue (List.replicate k '0' ++ ds) = digitsValue ds := by
  change Nat.ofDigitChars 10 _ 0 = Nat.ofDigitChars 10 ds 0
  rw [Nat.ofDigitChars_append, Nat.ofDigitChars_replicate_zero, mul_zero]

theorem digitsValue_append_zeros (ds : List Char) (k : ℕ) :
    digitsValue (ds ++ List.replicate k '0') = digitsValue ds * 10 ^ k := by
  change Nat.ofDigitChars 10 _ 0 = Nat.ofDigitChars 10 ds 0 * 10 ^ k
  rw [Nat.ofDigitChars_append, Nat.ofDigitChars_replicate_zero, mul_comm]

/-- No zero stands before other digits. -/
theorem head?_toDigits_ne {n : ℕ} (hn : n ≠ 0) : (Nat.toDigits 10 n).head? ≠ some '0' := by
  induction n using Nat.strong_induction_on with
  | _ n ih =>
    rcases Nat.lt_or_ge n 10 with h | h
    · rw [Nat.toDigits_of_lt_base h]
      have hdigits : ∀ m : ℕ, m < 10 → m ≠ 0 → some m.digitChar ≠ some '0' := by decide
      exact hdigits n h hn
    · rw [Nat.toDigits_of_base_le (by decide) h, List.head?_append_of_ne_nil _ Nat.toDigits_ne_nil]
      exact ih (n / 10) (by omega) (by omega)

/-! ### Points -/

/-- The digits with as many zeros before them as it takes for one digit before the point. -/
def padded (ds : List Char) (k : ℕ) : List Char := List.replicate (k + 1 - ds.length) '0' ++ ds

theorem length_padded (ds : List Char) (k : ℕ) :
    (padded ds k).length = k + 1 - ds.length + ds.length := by simp [padded]

theorem isDigit_of_mem_padded {n k : ℕ} {c : Char} (h : c ∈ padded (Nat.toDigits 10 n) k) :
    c.isDigit = true := by
  rcases List.mem_append.mp h with h | h
  · rw [(List.mem_replicate.mp h).2]
    rfl
  · exact isDigit_of_mem_toDigits h

/-- A zero stands first before the point only if no other digit stands there. -/
theorem whole_padded (n k : ℕ) {ds : List Char} (hds : ds = Nat.toDigits 10 n) :
    (padded ds k).take ((padded ds k).length - k) = ['0'] ∨
      ((padded ds k).take ((padded ds k).length - k)).head? ≠ some '0' := by
  have hlength := length_padded ds k
  rcases Nat.lt_or_ge k ds.length with h | h
  · -- Nothing is padded.
    have hsame : padded ds k = ds := by
      rw [padded, show k + 1 - ds.length = 0 by omega, List.replicate_zero, List.nil_append]
    rw [hsame]
    by_cases hn : n = 0
    · have hzero : ds = ['0'] := by rw [hds, hn, Nat.toDigits_zero]
      obtain rfl : k = 0 := by
        rw [hzero] at h
        simpa using h
      exact .inl (by rw [hzero]; rfl)
    · refine .inr ?_
      rw [List.head?_take, if_neg (by omega), hds]
      exact head?_toDigits_ne hn
  · obtain ⟨j, hj⟩ : ∃ j, k + 1 - ds.length = j + 1 := ⟨k - ds.length, by omega⟩
    rw [show (padded ds k).length - k = 1 by omega, padded, hj]
    exact .inl rfl

/-- At least one digit stands before the point, and the digits behind it are as many as asked
for. -/
theorem exists_point (n k : ℕ) : ∃ whole fraction : List Char,
    point (Nat.toDigits 10 n) k = whole ++ '.' :: fraction ∧ isDigits whole = true ∧
      (∀ c ∈ fraction, c.isDigit = true) ∧ fraction.length = k ∧
      digitsValue (whole ++ fraction) = n ∧
      (whole = ['0'] ∨ whole.head? ≠ some '0') := by
  have hpos : 0 < (Nat.toDigits 10 n).length := Nat.length_toDigits_pos
  have hlength := length_padded (Nat.toDigits 10 n) k
  have hvalue : digitsValue (padded (Nat.toDigits 10 n) k) = n := by
    rw [padded, digitsValue_zeros_append, digitsValue_toDigits]
  set ds := padded (Nat.toDigits 10 n) k with hds
  refine ⟨ds.take (ds.length - k), ds.drop (ds.length - k), rfl, ?_, ?_, ?_, ?_,
    whole_padded n k rfl⟩
  · refine isDigits_iff.mpr ⟨?_, fun c hc ↦ isDigit_of_mem_padded (List.mem_of_mem_take hc)⟩
    rw [← List.length_pos_iff, List.length_take]
    omega
  · exact fun c hc ↦ isDigit_of_mem_padded (List.mem_of_mem_drop hc)
  · rw [List.length_drop]
    omega
  · rw [List.take_append_drop, hvalue]

/-! ### Plain text -/

/-- A decimal with a point reads back with the same digits. -/
theorem read?_plain {d : Decimal} (h : d.exponent < 0) : read? d.plain = some d := by
  obtain ⟨whole, fraction, hplain, hwhole, hfraction, hlength, hvalue, -⟩ :=
    exists_point d.digits (-d.exponent).toNat
  obtain ⟨hne, hdigit⟩ := isDigits_iff.mp hwhole
  have hstop : Text.Stops Char.isDigit ('.' :: fraction) := Text.stops_cons.mpr rfl
  have hrest : readFraction ('.' :: fraction) = (fraction, []) := by
    rw [readFraction, List.takeWhile_eq_self_iff.mpr hfraction,
      List.dropWhile_eq_nil_iff.mpr hfraction]
  rw [plain, if_neg (by omega), hplain, read?, Text.takeWhile_run hdigit hstop,
    Text.dropWhile_run hdigit hstop, hrest]
  simp only [List.isEmpty_eq_false_iff.mpr hne, Bool.false_and, Bool.false_eq_true, if_false,
    hvalue, hlength]
  congr 1
  rw [Decimal.mk.injEq]
  exact ⟨rfl, by omega⟩

theorem plain_of_nonneg {d : Decimal} (h : 0 ≤ d.exponent) :
    isDigits d.plain = true ∧ digitsValue d.plain = d.digits * 10 ^ d.exponent.toNat := by
  rw [plain, if_pos h]
  refine ⟨isDigits_iff.mpr ⟨by simp, fun c hc ↦ ?_⟩, ?_⟩
  · rcases List.mem_append.mp hc with hc | hc
    · exact isDigit_of_mem_toDigits hc
    · rw [(List.mem_replicate.mp hc).2]
      rfl
  · rw [digitsValue_append_zeros, digitsValue_toDigits]

end LinearAssignment.Decimal
