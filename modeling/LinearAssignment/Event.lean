/-!
Events of a search, in the order in which they happen, and their wording.
-/

namespace LinearAssignment

inductive Event (α : Type) where
  | started (size : Nat)
  | seeded (matched size : Nat)
  | rowCovered (row col : Nat)
  | adjusted (amount : α)
  | augmented (links : Nat)
  | finished (size : Nat) (total : α)
deriving DecidableEq

namespace Event

/-- The beginning, the seed and the end of a search are of general interest; its single moves are
not. -/
inductive Level where
  | debug
  | trace
deriving DecidableEq

def Level.name : Level → String
  | debug => "debug"
  | trace => "trace"

variable {α : Type}

def level : Event α → Level
  | started _ | seeded _ _ | finished _ _ => .debug
  | rowCovered _ _ | adjusted _ | augmented _ => .trace

/-- The message of an event, with amounts written by `text`. -/
def message (text : α → String) : Event α → String
  | started n => "solving " ++ toString n ++ "x" ++ toString n ++ " assignment problem"
  | seeded k n => "initial match covers " ++ toString k ++ " of " ++ toString n ++ " rows"
  | rowCovered r c =>
    "zero (" ++ toString r ++ ", " ++ toString c ++ ") shares row with match, covering row " ++
      toString r
  | adjusted v => "adjusting uncovered region by " ++ text v
  | augmented k => "augmenting along chain of " ++ toString k ++ " links"
  | finished n v =>
    "solved " ++ toString n ++ "x" ++ toString n ++ " problem, total cost " ++ text v

def line (text : α → String) (e : Event α) : String := e.level.name ++ ": " ++ e.message text

end Event

end LinearAssignment
