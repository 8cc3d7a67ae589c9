/-!
White space: the characters with Unicode's `White_Space` property.
-/

namespace LinearAssignment.Text

/-- First and last code points of the runs of white space. -/
def blankRanges : List (Nat × Nat) :=
  [(0x09, 0x0D), (0x20, 0x20), (0x85, 0x85), (0xA0, 0xA0), (0x1680, 0x1680), (0x2000, 0x200A),
    (0x2028, 0x2029), (0x202F, 0x202F), (0x205F, 0x205F), (0x3000, 0x3000)]

def isBlank (c : Char) : Bool := blankRanges.any fun (lo, hi) ↦ lo ≤ c.toNat && c.toNat ≤ hi

theorem isBlank_of_isWhitespace {c : Char} (h : c.isWhitespace) : isBlank c := by
  simp only [Char.isWhitespace, Bool.or_eq_true, decide_eq_true_eq] at h
  rcases h with ((h | h) | h) | h <;> subst h <;> decide

def trimLeft (cs : List Char) : List Char := cs.dropWhile isBlank

def trimRight (cs : List Char) : List Char := (trimLeft cs.reverse).reverse

def trim (cs : List Char) : List Char := trimRight (trimLeft cs)

/-- Takes off leading spaces, and no other white space. -/
def skipSpaces (cs : List Char) : List Char := cs.dropWhile (· == ' ')

theorem length_skipSpaces_le (cs : List Char) : (skipSpaces cs).length ≤ cs.length :=
  (List.dropWhile_sublist _).length_le

/-- Whether a text neither begins nor ends with white space. -/
def isTrimmed (cs : List Char) : Bool := !cs.head?.any isBlank && !cs.getLast?.any isBlank

theorem trimLeft_of_isTrimmed {cs : List Char} (h : isTrimmed cs) : trimLeft cs = cs := by
  cases cs with
  | nil => rfl
  | cons c cs =>
    have hc : isBlank c = false := by simp_all [isTrimmed]
    simp [trimLeft, List.dropWhile, hc]

theorem trim_of_isTrimmed {cs : List Char} (h : isTrimmed cs) : trim cs = cs := by
  have hr : isTrimmed cs.reverse := by
    simpa [isTrimmed, List.head?_reverse, List.getLast?_reverse, Bool.and_comm] using h
  rw [trim, trimRight, trimLeft_of_isTrimmed h, trimLeft_of_isTrimmed hr, List.reverse_reverse]

end LinearAssignment.Text
