/-!
Integral binary64 numbers.
-/

namespace LinearAssignment.Binary64

open Float.Model

/-- The value of a number without a fraction. -/
def integer? (x : Float) : Option Int :=
  match x.toModel.unpack with
  | .zero _ => some 0
  | .finite s m q _ =>
    if 0 ≤ q then some (s.apply (m * Nat.pow 2 q.toNat))
    else if m % Nat.pow 2 (-q).toNat = 0 then some (s.apply (m / Nat.pow 2 (-q).toNat))
    else none
  | .infinity _ | .notANumber => none

end LinearAssignment.Binary64
