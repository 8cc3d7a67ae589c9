/-!
Costs: the numbers that a matrix holds.

The search adds, subtracts and compares costs and looks for exact zeros, and nothing more. It
therefore runs unchanged on binary64 numbers, on integers and on rationals.
-/

namespace LinearAssignment

/-- What the search asks of a number. -/
class Cost (α : Type) where
  zero : α
  add : α → α → α
  sub : α → α → α
  lt : α → α → Prop
  decLt : DecidableRel lt
  beq : α → α → Bool
  /-- The value of the sum without terms. -/
  emptySum : α
  /-- Neither infinite nor undefined. -/
  isFinite : α → Bool
  /-- The product with a natural number. -/
  times : α → Nat → α

attribute [reducible] Cost.decLt

/-- Binary64: the sum without terms is the negative zero, which is the neutral element of
rounded addition. -/
instance : Cost Float where
  zero := Float.ofBits 0
  add := Float.add
  sub := Float.sub
  lt a b := a.lt b
  decLt := Float.decLt
  beq := Float.beq
  emptySum := Float.neg (Float.ofBits 0)
  isFinite := Float.isFinite
  times a k := a.mul (Float.ofNat k)

instance : Cost Int where
  zero := Int.ofNat 0
  add := Int.add
  sub := Int.sub
  lt := Int.lt
  decLt := Int.decLt
  beq a b := (Int.instDecidableEq a b).decide
  emptySum := Int.ofNat 0
  isFinite _ := true
  times a k := a.mul (Int.ofNat k)

instance : Cost Rat where
  zero := Rat.ofInt (Int.ofNat 0)
  add := Rat.add
  sub := Rat.sub
  lt a b := a.blt b
  decLt a b := instDecidableEqBool (a.blt b) true
  beq a b := (instDecidableEqRat a b).decide
  emptySum := Rat.ofInt (Int.ofNat 0)
  isFinite _ := true
  times a k := a.mul (Rat.ofInt (Int.ofNat k))

namespace Cost

variable {α : Type} [Cost α]

/-! The operations under their usual signs. A type of numbers with operations of its own is asked
for those first. -/

instance (priority := low) : Zero α := ⟨zero⟩

instance (priority := low) : Add α := ⟨add⟩

instance (priority := low) : Sub α := ⟨sub⟩

instance (priority := low) : LT α := ⟨lt⟩

instance (priority := low) : BEq α := ⟨beq⟩

instance (priority := low) (a b : α) : Decidable (a < b) := decLt a b

def sum (vs : List α) : α := vs.foldl (· + ·) emptySum

/-- A number that equals itself. -/
def isNumber (a : α) : Bool := a == a

def lesser (a b : α) : α := if b < a then b else a

def greater (a b : α) : α := if a < b then b else a

/-- Folds the numbers of a list, passing over what is not a number. -/
def foldNumbers? (f : α → α → α) (vs : List α) : Option α :=
  match vs.filter isNumber with
  | [] => none
  | v :: rest => some (rest.foldl f v)

def least? (vs : List α) : Option α := foldNumbers? lesser vs

def greatest? (vs : List α) : Option α := foldNumbers? greater vs

@[simp] theorem least?_nil : least? ([] : List α) = none := rfl

@[simp] theorem greatest?_nil : greatest? ([] : List α) = none := rfl

end Cost

end LinearAssignment
