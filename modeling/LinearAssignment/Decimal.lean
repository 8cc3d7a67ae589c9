/-!
Nonnegative decimal numbers: digits and a power of ten, the nearest binary64 number, and the plain
text without an exponent.
-/

namespace LinearAssignment

structure Decimal where
  digits : Nat
  exponent : Int
deriving DecidableEq

namespace Decimal

/-- The nearest binary64 number; of two equally near ones the even one, and infinity beyond the
range. -/
def toFloat (d : Decimal) : Float := .ofModel (.ofScientific d.digits d.exponent)

/-- Writes a point before the last `k` digits. At least one digit stands before the point. -/
def point (ds : List Char) (k : Nat) : List Char :=
  let padded := List.replicate (k + 1 - ds.length) '0' ++ ds
  padded.take (padded.length - k) ++ '.' :: padded.drop (padded.length - k)

/-- All digits of the number, with a point if its exponent is negative. -/
def plain (d : Decimal) : List Char :=
  let ds := Nat.toDigits 10 d.digits
  if 0 ≤ d.exponent then ds ++ List.replicate d.exponent.toNat '0'
  else point ds (-d.exponent).toNat

end Decimal

end LinearAssignment
