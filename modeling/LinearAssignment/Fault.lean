/-!
Faults: the ways in which a computation on unchecked positions can break off.
-/

namespace LinearAssignment

inductive Fault where
  /-- A position beyond the end of a list of `size` entries. -/
  | outOfRange (size index : Nat)
  /-- A chain that comes back to one of its columns. -/
  | circularChain
  /-- No zero is uncovered and no adjustment can make one. -/
  | noZero
  /-- The turns granted to the search ran out. -/
  | unfinished
deriving DecidableEq

namespace Fault

def message : Fault → String
  | outOfRange size index =>
    "index out of bounds: the len is " ++ toString size ++ " but the index is " ++ toString index
  | circularChain => "the chain is circular"
  | noZero => "no uncovered zero can be made"
  | unfinished => "the search is unfinished"

end Fault

def entry {α : Type} (xs : List α) (i : Nat) : Except Fault α :=
  match xs[i]? with
  | some x => .ok x
  | none => .error (.outOfRange xs.length i)

def slot {α : Type} {n : Nat} (xs : Vector α n) (i : Nat) : Except Fault α :=
  match xs[i]? with
  | some x => .ok x
  | none => .error (.outOfRange n i)

theorem entry_of_lt {α : Type} {xs : List α} {i : Nat} (h : i < xs.length) :
    entry xs i = .ok xs[i] := by
  simp [entry, h]

theorem entry_of_le {α : Type} {xs : List α} {i : Nat} (h : xs.length ≤ i) :
    entry xs i = .error (.outOfRange xs.length i) := by
  simp [entry, h]

theorem slot_of_lt {α : Type} {n : Nat} {xs : Vector α n} {i : Nat} (h : i < n) :
    slot xs i = .ok xs[i] := by
  simp [slot, h]

theorem slot_of_le {α : Type} {n : Nat} {xs : Vector α n} {i : Nat} (h : n ≤ i) :
    slot xs i = .error (.outOfRange n i) := by
  simp [slot, h]

end LinearAssignment
