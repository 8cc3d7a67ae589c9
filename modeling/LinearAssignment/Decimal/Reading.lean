import LinearAssignment.Decimal

/-!
Reading of decimal numbers: digits with at most one point, then an exponent if there is one.
-/

namespace LinearAssignment.Decimal

def digitsValue (ds : List Char) : Nat := ds.foldl (fun n c ↦ 10 * n + (c.toNat - '0'.toNat)) 0

def isDigits (cs : List Char) : Bool := !cs.isEmpty && cs.all Char.isDigit

/-- An integer with an optional sign. -/
def readInteger? : List Char → Option Int
  | '-' :: ds => if isDigits ds then some (-digitsValue ds) else none
  | '+' :: ds => if isDigits ds then some (digitsValue ds) else none
  | ds => if isDigits ds then some (digitsValue ds) else none

/-- The digits after the point, and what follows them. -/
def readFraction : List Char → List Char × List Char
  | '.' :: cs => (cs.takeWhile Char.isDigit, cs.dropWhile Char.isDigit)
  | cs => ([], cs)

/-- An unsigned decimal. There is at least one digit before or after the point. -/
def read? (cs : List Char) : Option Decimal :=
  let whole := cs.takeWhile Char.isDigit
  let (fraction, rest) := readFraction (cs.dropWhile Char.isDigit)
  if whole.isEmpty && fraction.isEmpty then none
  else
    let digits := digitsValue (whole ++ fraction)
    match rest with
    | [] => some ⟨digits, -fraction.length⟩
    | c :: exponent =>
      if c = 'e' ∨ c = 'E' then
        (readInteger? exponent).map fun e ↦ ⟨digits, e - fraction.length⟩
      else none

end LinearAssignment.Decimal
