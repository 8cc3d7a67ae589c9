import LinearAssignment.Decimal.Shortest

/-!
The text of a binary64 number: its shortest decimal, written out without an exponent.
-/

namespace LinearAssignment.Decimal

open Float.Model

def signText : UnpackedFloat.Sign → List Char
  | .negative => ['-']
  | .positive => []

/-- The text of a number, `NaN` and `inf` included. -/
def textChars (x : Float) : List Char :=
  match x.toModel.unpack with
  | .notANumber => ['N', 'a', 'N']
  | .infinity s => signText s ++ ['i', 'n', 'f']
  | .zero s => signText s ++ ['0']
  | .finite s m q h => signText s ++ (shortest m q h).plain

def text (x : Float) : String := String.ofList (textChars x)

end LinearAssignment.Decimal
