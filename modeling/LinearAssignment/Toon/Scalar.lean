import LinearAssignment.Binary64
import LinearAssignment.Decimal.Reading
import LinearAssignment.Decimal.Text
import LinearAssignment.Text.Blank
import LinearAssignment.Toon.Quoted

/-!
Scalars of a document: their kinds, their text, and the reading of a text as a scalar.

Integral numbers in the range of 64 bits are integers. A text that would be read as anything but
itself is quoted.
-/

namespace LinearAssignment.Toon

inductive Scalar where
  | null
  | bool (b : Bool)
  | integer (i : Int)
  | number (x : Float)
  | text (s : String)
deriving BEq

namespace Scalar

/-! ### Numbers -/

def twoPow63 : Int := 9223372036854775808

def twoPow64 : Int := 18446744073709551616

/-- The scalar of a binary64 number. What is neither finite nor a number is null; an integral
number is an integer if it fits into 64 bits, signed or unsigned, and the powers of two that just
fail to fit become the greatest integers that do. -/
def ofFloat (x : Float) : Scalar :=
  match Binary64.integer? x with
  | some i =>
    if -twoPow63 ≤ i ∧ i ≤ twoPow63 then integer (min i (twoPow63 - 1))
    else if 0 ≤ i ∧ i ≤ twoPow64 then integer (min i (twoPow64 - 1))
    else number x
  | none => if x.isFinite then number x else null

def toFloat? : Scalar → Option Float
  | integer i =>
    let d : Decimal := ⟨i.natAbs, 0⟩
    some (if i < 0 then -d.toFloat else d.toFloat)
  | number x => some x
  | _ => none

/-- A position: an integer that is not negative. -/
def toIndex? : Scalar → Option Nat
  | integer i => if 0 ≤ i then some i.toNat else none
  | _ => none

/-! ### Writing -/

def isStructural (c : Char) : Bool :=
  c ∈ ['[', ']', '{', '}', ':', '-', '\\', '"', ',', '\n', '\r', '\t']

/-- Whether a text begins with a digit and goes on with characters of numbers. -/
def isNumberLike : List Char → Bool
  | [] => false
  | c :: cs => c.isDigit && cs.all fun d ↦ d.isDigit || d ∈ ['.', 'e', 'E', '+', '-']

def hasLeadingZero : List Char → Bool
  | '0' :: c :: _ => c.isDigit
  | _ => false

def isLiteral (cs : List Char) : Bool :=
  cs = "null".toList || cs = "true".toList || cs = "false".toList

def needsQuotes (cs : List Char) : Bool :=
  cs.isEmpty || isLiteral cs || isNumberLike cs || hasLeadingZero cs || cs.any isStructural ||
    !Text.isTrimmed cs

def writeText (cs : List Char) : List Char := if needsQuotes cs then quote cs else cs

def writeInteger (i : Int) : List Char :=
  if i < 0 then '-' :: Nat.toDigits 10 i.natAbs else Nat.toDigits 10 i.natAbs

def write : Scalar → List Char
  | null => "null".toList
  | bool true => "true".toList
  | bool false => "false".toList
  | integer i => writeInteger i
  | number x => Decimal.textChars x
  | text s => writeText s.toList

/-! ### Reading -/

/-- The scalar of a number that is written with a point or an exponent. Integral numbers become
integers of 64 bits, and infinity is refused. -/
def ofReal? (x : Float) : Option Scalar :=
  match Binary64.integer? x with
  | some i =>
    if -twoPow63 ≤ i ∧ i ≤ twoPow63 then some (integer (min i (twoPow63 - 1)))
    else some (number x)
  | none => if x.isFinite then some (number x) else none

/-- A number with a point or an exponent, or else an integer of 64 bits. -/
def readUnsigned? (negative : Bool) (cs : List Char) : Option (Option Scalar) :=
  if hasLeadingZero cs then none
  else if cs.any (· ∈ ['.', 'e', 'E']) then
    (Decimal.read? cs).map fun d ↦ ofReal? (if negative then -d.toFloat else d.toFloat)
  else if Decimal.isDigits cs then
    let i : Int := if negative then -Decimal.digitsValue cs else Decimal.digitsValue cs
    if -twoPow63 ≤ i ∧ i < twoPow63 then some (some (integer i)) else none
  else none

/-- A text that begins like a number is one if it has the form of one; `none` stands for no
number, `some none` for a number out of range. -/
def readNumber? : List Char → Option (Option Scalar)
  | [] => none
  | '-' :: cs => readUnsigned? true cs
  | c :: cs => if c.isDigit then readUnsigned? false (c :: cs) else none

def readTrimmed? : List Char → Option Scalar
  | '"' :: cs =>
    match unquote? cs with
    | some (content, []) => some (text (String.ofList content))
    | _ => none
  | cs =>
    if cs = "null".toList then some null
    else if cs = "true".toList then some (bool true)
    else if cs = "false".toList then some (bool false)
    else (readNumber? cs).getD (some (text (String.ofList cs)))

def read? (cs : List Char) : Option Scalar := readTrimmed? (Text.trim cs)

end Scalar

end LinearAssignment.Toon
