/-!
Quoted text. Line ends, tabs, quotes and backslashes are escaped; all else stands for itself.
-/

namespace LinearAssignment.Toon

def escapeChar : Char → List Char
  | '\n' => ['\\', 'n']
  | '\r' => ['\\', 'r']
  | '\t' => ['\\', 't']
  | '"' => ['\\', '"']
  | '\\' => ['\\', '\\']
  | c => [c]

def unescapeChar? : Char → Option Char
  | 'n' => some '\n'
  | 'r' => some '\r'
  | 't' => some '\t'
  | '"' => some '"'
  | '\\' => some '\\'
  | _ => none

def quote (cs : List Char) : List Char := '"' :: cs.flatMap escapeChar ++ ['"']

/-- Reads up to the closing quote. What follows it is left over. -/
def unquote? : List Char → Option (List Char × List Char)
  | [] => none
  | ['\\'] => none
  | '"' :: rest => some ([], rest)
  | '\\' :: c :: rest =>
    match unescapeChar? c, unquote? rest with
    | some d, some (cs, left) => some (d :: cs, left)
    | _, _ => none
  | c :: rest => (unquote? rest).map fun (cs, left) ↦ (c :: cs, left)

theorem unquote?_cons {c : Char} (h₁ : c ≠ '"') (h₂ : c ≠ '\\') (rest : List Char) :
    unquote? (c :: rest) = (unquote? rest).map fun (cs, left) ↦ (c :: cs, left) := by
  rw [unquote?]
  all_goals simp_all

theorem unquote?_escapeChar (c : Char) {rest cs left : List Char}
    (h : unquote? rest = some (cs, left)) :
    unquote? (escapeChar c ++ rest) = some (c :: cs, left) := by
  unfold escapeChar
  split <;> try simp [unquote?, unescapeChar?, h]
  rw [unquote?_cons (by assumption) (by assumption), h]
  rfl

theorem length_le_of_unquote? {cs content left : List Char}
    (h : unquote? cs = some (content, left)) : left.length ≤ cs.length := by
  fun_induction unquote? cs generalizing content with
  | case1 | case2 | case5 => simp at h
  | case3 rest =>
    obtain ⟨-, rfl⟩ := Prod.mk.inj (Option.some.inj h)
    exact Nat.le_succ _
  | case4 c rest d cs' left' hr _ ih =>
    obtain ⟨-, rfl⟩ := Prod.mk.inj (Option.some.inj h)
    exact Nat.le_succ_of_le (Nat.le_succ_of_le (ih hr))
  | case6 c rest _ _ _ ih =>
    obtain ⟨⟨cs', left'⟩, hr, he⟩ := Option.map_eq_some_iff.1 h
    obtain ⟨-, rfl⟩ := Prod.mk.inj he
    exact Nat.le_succ_of_le (ih hr)

theorem unquote?_escape (cs left : List Char) :
    unquote? (cs.flatMap escapeChar ++ '"' :: left) = some (cs, left) := by
  induction cs with
  | nil => simp [unquote?]
  | cons c cs ih => rw [List.flatMap_cons, List.append_assoc, unquote?_escapeChar c ih]

end LinearAssignment.Toon
