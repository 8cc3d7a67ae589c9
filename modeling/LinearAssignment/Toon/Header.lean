import LinearAssignment.Decimal.Reading
import LinearAssignment.Toon.Token

/-!
Headers of lists. A header `[N]:` announces `N` items. It may set the character that separates
items on one line, and it may name the columns of a table.
-/

namespace LinearAssignment.Toon

structure Header where
  count : Nat
  delimiter : Char
  /-- The names of the columns, where the items are the rows of a table. -/
  columns : Option (List String)
deriving DecidableEq

namespace Header

/-- The number of items. It may be quoted; then a minus sign is refused even before zero. -/
def count? : Token → Option Nat
  | .number cs => (Decimal.readInteger? cs).bind fun i ↦ if 0 ≤ i then some i.toNat else none
  | .word cs | .quoted cs =>
    if cs.head? = some '-' then none else (Decimal.readInteger? cs).map Int.toNat
  | _ => none

/-- The delimiter that a header sets, a comma if it sets none, up to the closing bracket. -/
def readDelimiter? (current : Option Char) (cs : List Char) : Option (Part Char cs) := do
  let (t, ⟨rest, h⟩) ← Token.read? current cs
  if t = .mark ']' then some (',', ⟨rest, h⟩)
  else do
    let delimiter ← match t with
      | .delimiter => current
      | .word [c] | .quoted [c] => if c ∈ [',', '|', '\t'] then some c else none
      | _ => none
    let (t, ⟨rest, h'⟩) ← Token.read? current rest
    if t = .mark ']' then some (delimiter, ⟨rest, Nat.lt_trans h' h⟩) else none

/-- Names with delimiters between them, perhaps with one behind the last, up to the closing
brace. -/
def readNames? (delimiter : Char) (cs : List Char) : Option (Part (List String) cs) := do
  let (t, ⟨rest₁, h₁⟩) ← Token.read? (some delimiter) cs
  if t = .mark '}' then some ([], ⟨rest₁, h₁⟩)
  else do
    let name ← t.name?
    let (t, ⟨rest₂, h₂⟩) ← Token.read? (some delimiter) rest₁
    if t = .mark '}' then some ([name], ⟨rest₂, Nat.lt_trans h₂ h₁⟩)
    else if t = .delimiter then do
      let (names, ⟨rest₃, h₃⟩) ← readNames? delimiter rest₂
      some (name :: names, ⟨rest₃, Nat.lt_trans h₃ (Nat.lt_trans h₂ h₁)⟩)
    else none
termination_by cs.length

def areColumns (names : List String) : Bool :=
  !names.isEmpty && names.all (!·.isEmpty) && names.Nodup

/-- The names of the columns, if there are any, and the colon behind them. -/
def readColumns? (delimiter : Char) (cs : List Char) : Option (Part (Option (List String)) cs) := do
  let (t, ⟨rest₁, h₁⟩) ← Token.read? (some delimiter) cs
  if t = .mark ':' then some (none, ⟨rest₁, h₁⟩)
  else if t = .mark '{' then do
    let (names, ⟨rest₂, h₂⟩) ← readNames? delimiter rest₁
    let (t, ⟨rest₃, h₃⟩) ← Token.read? (some delimiter) rest₂
    if areColumns names ∧ t = .mark ':' then
      some (some names, ⟨rest₃, Nat.lt_trans h₃ (Nat.lt_trans h₂ h₁)⟩)
    else none
  else none

def read? (current : Option Char) (cs : List Char) : Option (Part Header cs) := do
  let (t, ⟨rest₁, h₁⟩) ← Token.read? current cs
  let count ← count? t
  let (delimiter, ⟨rest₂, h₂⟩) ← readDelimiter? current rest₁
  let (columns, ⟨rest₃, h₃⟩) ← readColumns? delimiter rest₂
  some (⟨count, delimiter, columns⟩, ⟨rest₃, Nat.lt_trans h₃ (Nat.lt_trans h₂ h₁)⟩)

end Header

end LinearAssignment.Toon
