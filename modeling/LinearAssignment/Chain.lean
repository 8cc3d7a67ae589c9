import LinearAssignment.Fault
import LinearAssignment.Matching

/-!
Alternating chains. A chain begins with a cell that is to enter the matching and goes on along
matched pairs, which are to leave it, and marked zeros, which are to enter it.
-/

namespace LinearAssignment

inductive Link where
  | enter (row col : Nat)
  | leave (row col : Nat)
deriving DecidableEq

abbrev Chain := List Link

namespace Chain

variable {n : Nat}

/-- The links that follow a column: its matched pair leaves, and the marked zero of the matched
row enters. A chain that visits no column twice needs no more than `n + 1` steps. -/
def beyond (m : Matching n) (marks : Vector (Option Nat) n) : Nat → Nat → Except Fault Chain
  | 0, _ => .error .circularChain
  | steps + 1, col =>
    match slot m.rowOf col with
    | .error f => .error f
    | .ok none => .ok []
    | .ok (some row) =>
      match slot marks row with
      | .error f => .error f
      | .ok none => .ok [.leave row col]
      | .ok (some next) =>
        (beyond m marks steps next).map fun rest ↦ .leave row col :: .enter row next :: rest

def startingAt (m : Matching n) (marks : Vector (Option Nat) n) (row col : Nat) :
    Except Fault Chain :=
  (beyond m marks (n + 1) col).map (.enter row col :: ·)

end Chain

namespace Matching

variable {n : Nat}

def release (m : Matching n) : Link → Matching n
  | .enter _ _ => m
  | .leave row col => m.unlink row col

def adopt (m : Matching n) : Link → Matching n
  | .enter row col => m.link row col
  | .leave _ _ => m

/-- Releases every leaving pair, then adopts every entering one. -/
def flip (m : Matching n) (chain : Chain) : Matching n :=
  chain.foldl adopt (chain.foldl release m)

end Matching

end LinearAssignment
