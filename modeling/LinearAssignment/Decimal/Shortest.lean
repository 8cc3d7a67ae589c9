import LinearAssignment.Decimal

/-!
The shortest decimal that reads back to a binary64 number.

For a positive number `m * 2 ^ q` the multiples of `10 ^ e` are searched, for falling `e`. The
first `e` for which one of the two neighbours of the number reads back gives the fewest digits.
The number itself is a multiple of `10 ^ (min q 0)`, so the search ends there at the latest.
-/

namespace LinearAssignment.Decimal

/-- Numerator and denominator of `m * 2 ^ q / 10 ^ e`. -/
def ratio (m : Nat) (q e : Int) : Nat × Nat :=
  (m * Nat.pow 2 q.toNat * Nat.pow 10 (-e).toNat, Nat.pow 2 (-q).toNat * Nat.pow 10 e.toNat)

/-- The multiples of `10 ^ e` next to `m * 2 ^ q`, the nearer one first. Of two equally near ones
the greater is first. -/
def neighbours (m : Nat) (q e : Int) : List Decimal :=
  let (a, b) := ratio m q e
  if 2 * (a % b) < b then [⟨a / b, e⟩, ⟨a / b + 1, e⟩] else [⟨a / b + 1, e⟩, ⟨a / b, e⟩]

/-- An exponent `e` such that `m * 2 ^ q` lies below `10 ^ (e + 1)`: the logarithm of two is
about `0.30103`. -/
def topExponent (m : Nat) (q : Int) : Int := (m.log2 + 1 + q) * 30103 / 100000 + 1

def exponents (m : Nat) (q : Int) : List Int :=
  let top := topExponent m q
  (List.range (top - min q 0 + 1).toNat).map fun i : Nat ↦ top - i

def magnitude (m : Nat) (q : Int) (h : 0 < m) : Float := .ofModel (.pack (.finite .positive m q h))

def shortest? (m : Nat) (q : Int) (h : 0 < m) : Option Decimal :=
  (exponents m q).findSome? fun e ↦ (neighbours m q e).find? fun d ↦ d.toFloat = magnitude m q h

theorem toFloat_of_shortest? {m : Nat} {q : Int} {h : 0 < m} {d : Decimal}
    (hd : shortest? m q h = some d) : d.toFloat = magnitude m q h := by
  obtain ⟨e, -, he⟩ := List.exists_of_findSome?_eq_some hd
  simpa using List.find?_some he

def exact (m : Nat) (q : Int) : Decimal := ⟨m * Nat.pow 2 q.toNat * Nat.pow 5 (-q).toNat, min q 0⟩

def shortest (m : Nat) (q : Int) (h : 0 < m) : Decimal := (shortest? m q h).getD (exact m q)

end LinearAssignment.Decimal
