import LinearAssignment.Toon.Token

/-!
Cells: the texts between the delimiters of a line. A cell is read from its first token; a delimiter
or a line end inside quoted text at its beginning does not end it.
-/

namespace LinearAssignment.Toon.Cell

def isEnd (delimiter : Option Char) (c : Char) : Bool := delimiter = some c || c = '\n'

/-- The scalar of a cell, the empty text if there are only spaces, and what follows the cell. -/
def read? (delimiter : Option Char) (cs : List Char) :
    Option (Scalar × { rest : List Char // rest.length ≤ cs.length }) :=
  if (Text.skipSpaces cs).head?.all (isEnd delimiter) then
    some (.text "", ⟨Text.skipSpaces cs, Text.length_skipSpaces_le cs⟩)
  else do
    let (t, ⟨rest, h⟩) ← Token.read? delimiter cs
    let s ← t.scalarWith? (rest.takeWhile (!isEnd delimiter ·))
    some (s, ⟨rest.dropWhile (!isEnd delimiter ·),
      Nat.le_trans (List.dropWhile_sublist _).length_le (Nat.le_of_lt h)⟩)

/-- A number of cells with delimiters between them, and what follows the last. -/
def readMany? (delimiter : Option Char) :
    Nat → (cs : List Char) → Option (List Scalar × { rest : List Char // rest.length ≤ cs.length })
  | 0, cs => some ([], ⟨cs, Nat.le_refl _⟩)
  | 1, cs => do
    let (s, rest) ← read? delimiter cs
    some ([s], rest)
  | n + 2, cs => do
    match ← read? delimiter cs with
    | (_, ⟨[], _⟩) => none
    | (s, ⟨c :: rest, h⟩) =>
      if delimiter = some c then do
        let (ss, ⟨rest', h'⟩) ← readMany? delimiter (n + 1) rest
        some (s :: ss, ⟨rest', Nat.le_trans h' (Nat.le_of_succ_le h)⟩)
      else none

end LinearAssignment.Toon.Cell
