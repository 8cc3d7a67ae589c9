import LinearAssignment.Toon.Scalar

/-!
Values of a document: scalars, lists, and objects with their fields in order.
-/

namespace LinearAssignment.Toon

inductive Value where
  | scalar (s : Scalar)
  | list (items : List Value)
  | object (fields : List (String × Value))

namespace Value

def text? : Value → Option String
  | scalar (.text s) => some s
  | _ => none

def isNull : Value → Bool
  | scalar .null => true
  | _ => false

def float? : Value → Option Float
  | scalar s => s.toFloat?
  | _ => none

def index? : Value → Option Nat
  | scalar s => s.toIndex?
  | _ => none

def items? : Value → Option (List Value)
  | list items => some items
  | _ => none

/-- The last field of a name. -/
def lookup (fields : List (String × Value)) (name : String) : Option Value :=
  fields.reverse.lookup name

/-- The values of named parts, in the order of the names. An object holds them as fields, of which
any may be missing and others may be present; a list holds exactly these parts. -/
def parts? (names : List String) : Value → Option (List (Option Value))
  | object fields => some (names.map (lookup fields))
  | list items => if items.length = names.length then some (items.map some) else none
  | scalar _ => none

end Value

end LinearAssignment.Toon
