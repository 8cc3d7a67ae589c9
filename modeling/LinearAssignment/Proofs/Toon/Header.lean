import LinearAssignment.Proofs.Toon.Cursor
import LinearAssignment.Toon.Section

/-!
Headers of written lists: the number of items and, for a table, the names of its columns.
-/

namespace LinearAssignment.Toon.Header

open Token (IsKey Lexes Reads ends_cons)

variable {delimiter : Option Char} {rest : List Char}

theorem lexes_digits (n : ℕ) : Lexes (Nat.toDigits 10 n) (Token.ofNumeral (Nat.toDigits 10 n)) :=
  Token.lexes_numeral
    ⟨.positive, _, Scalar.isNumberLike_of_isDigits (Decimal.isDigits_toDigits n), rfl⟩

/-- The number of items, also if it is too great for an integer of 64 bits. -/
theorem count?_digits (n : ℕ) : count? (Token.ofNumeral (Nat.toDigits 10 n)) = some n := by
  have hd := Decimal.isDigits_toDigits n
  obtain ⟨c, ds, hds⟩ := List.exists_cons_of_ne_nil (Decimal.isDigits_iff.mp hd).1
  have hc : c.isDigit = true := (Decimal.isDigits_iff.mp hd).2 c (hds ▸ List.mem_cons_self)
  have hminus : c ≠ '-' := Scalar.ne_of_isDigit hc rfl
  have hplus : c ≠ '+' := Scalar.ne_of_isDigit hc rfl
  have hread : Decimal.readInteger? (Nat.toDigits 10 n) = some (n : ℤ) := by
    have hvalue := Decimal.digitsValue_toDigits n
    rw [hds] at hd hvalue ⊢
    unfold Decimal.readInteger?
    split
    · next h => exact absurd (List.cons_eq_cons.mp h).1 hminus
    · next h => exact absurd (List.cons_eq_cons.mp h).1 hplus
    · rw [if_pos hd, hvalue]
  unfold Token.ofNumeral
  split_ifs
  · change (Decimal.readInteger? (Nat.toDigits 10 n)).bind _ = _
    rw [hread, Option.bind_some, if_pos (Int.natCast_nonneg n), Int.toNat_natCast]
  · change (if (Nat.toDigits 10 n).head? = some '-' then none
      else (Decimal.readInteger? (Nat.toDigits 10 n)).map Int.toNat) = _
    rw [hread, hds, if_neg (by simpa using hminus)]
    rfl

theorem exists_readDelimiter? (delimiter : Option Char) (rest : List Char) :
    ∃ hr, readDelimiter? delimiter (']' :: rest) = some (',', ⟨rest, hr⟩) := by
  obtain ⟨hr, hread⟩ := (Token.reads_mark delimiter (c := ']') rfl rest).read?
  rw [readDelimiter?, hread]
  exact ⟨hr, rfl⟩

theorem exists_readNames? (rest : List Char) {names : List String} (hne : names ≠ [])
    (hkeys : ∀ k ∈ names, IsKey k) :
    ∃ hr, readNames? ',' (Text.join ',' (names.map String.toList) ++ '}' :: rest) =
      some (names, ⟨rest, hr⟩) := by
  induction names with
  | nil => exact absurd rfl hne
  | cons k names ih =>
    obtain ⟨hk, hkeys⟩ := List.forall_mem_cons.mp hkeys
    have hname : (Token.word k.toList).name? = some k := congrArg some String.ofList_toList
    cases names with
    | nil =>
      rw [List.map_singleton, Text.join_singleton]
      obtain ⟨h₁, hread₁⟩ := (Token.lexes_key hk (some ',') (.inr rfl) ('}' :: rest)
        (ends_cons.mpr rfl)).read?
      obtain ⟨h₂, hread₂⟩ := (Token.reads_mark (some ',') (c := '}') rfl rest).read?
      rw [readNames?, hread₁, Option.bind_eq_bind, Option.bind_some]
      dsimp only
      rw [if_neg nofun, hname]
      simp only [Option.bind_eq_bind, Option.bind_some, hread₂, if_pos]
      exact ⟨Nat.lt_trans h₂ h₁, trivial⟩
    | cons k' names =>
      rw [List.map_cons, List.map_cons, Text.join_cons_cons, List.append_assoc, List.cons_append,
        ← List.map_cons]
      set more := Text.join ',' ((k' :: names).map String.toList) ++ '}' :: rest
      obtain ⟨h₃, hread₃⟩ := ih (List.cons_ne_nil _ _) hkeys
      obtain ⟨h₁, hread₁⟩ := (Token.lexes_key hk (some ',') (.inr rfl) (',' :: more)
        (ends_cons.mpr rfl)).read?
      obtain ⟨h₂, hread₂⟩ := (Token.reads_comma more).read?
      rw [readNames?, hread₁, Option.bind_eq_bind, Option.bind_some]
      dsimp only
      rw [if_neg nofun, hname]
      simp only [Option.bind_eq_bind, Option.bind_some, hread₂, reduceCtorEq, if_false, if_true,
        hread₃]
      exact ⟨Nat.lt_trans h₃ (Nat.lt_trans h₂ h₁), trivial⟩

/-- Behind the number of items and its bracket: the colon, or the columns and the colon. -/
theorem exists_readColumns? (rest : List Char) :
    ∃ hr, readColumns? ',' (':' :: rest) = some (none, ⟨rest, hr⟩) := by
  obtain ⟨hr, hread⟩ := (Token.reads_mark (some ',') (c := ':') rfl rest).read?
  rw [readColumns?, hread]
  exact ⟨hr, rfl⟩

theorem exists_readColumns?_names {names : List String} (hnames : areColumns names = true)
    (hkeys : ∀ k ∈ names, IsKey k) (rest : List Char) :
    ∃ hr, readColumns? ',' (Section.writeColumns names ++ ':' :: rest) =
      some (some names, ⟨rest, hr⟩) := by
  have hne : names ≠ [] := by
    rintro rfl
    cases hnames
  obtain ⟨h₂, hread₂⟩ := exists_readNames? (':' :: rest) hne hkeys
  rw [Section.writeColumns, List.cons_append, List.cons_append, List.append_assoc,
    List.singleton_append]
  obtain ⟨h₁, hread₁⟩ := (Token.reads_mark (some ',') (c := '{') rfl
    (Text.join ',' (names.map String.toList) ++ '}' :: ':' :: rest)).read?
  obtain ⟨h₃, hread₃⟩ := (Token.reads_mark (some ',') (c := ':') rfl rest).read?
  rw [readColumns?, hread₁, Option.bind_eq_bind, Option.bind_some]
  dsimp only
  rw [if_neg nofun, if_pos rfl]
  simp only [Option.bind_eq_bind, hread₂, Option.bind_some, hread₃, hnames]
  exact ⟨Nat.lt_trans h₃ (Nat.lt_trans h₂ h₁), rfl⟩

theorem exists_read? (hd : IsWritten delimiter) (n : ℕ) {columns : Option (List String)}
    {cs : List Char} (hcolumns : ∃ hr, readColumns? ',' cs = some (columns, ⟨rest, hr⟩)) :
    ∃ hr, read? delimiter (Nat.toDigits 10 n ++ ']' :: cs) =
      some (⟨n, ',', columns⟩, ⟨rest, hr⟩) := by
  obtain ⟨h₁, hread₁⟩ := (lexes_digits n delimiter hd (']' :: cs)
    (ends_cons.mpr (Token.isEnd_of_none rfl))).read?
  obtain ⟨h₂, hread₂⟩ := exists_readDelimiter? delimiter cs
  obtain ⟨h₃, hread₃⟩ := hcolumns
  rw [read?, hread₁, Option.bind_eq_bind, Option.bind_some]
  simp only [count?_digits, Option.bind_eq_bind, Option.bind_some, hread₂, hread₃]
  exact ⟨Nat.lt_trans h₃ (Nat.lt_trans h₂ h₁), trivial⟩

end LinearAssignment.Toon.Header
