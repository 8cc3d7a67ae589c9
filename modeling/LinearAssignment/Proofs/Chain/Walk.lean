import LinearAssignment.Proofs.Chain.Route
import Mathlib.Data.Fintype.Card
import Mathlib.Data.List.Chain

/-!
Walks: from a column to the row that it is matched to, and on to the column of that row's mark.

A walk that visits no column twice comes to an end, and the links on its way are the route from its
first column.
-/

namespace LinearAssignment.Chain

variable {n : ℕ} {m : Matching n} {marks : Vector (Option ℕ) n} {c d : Fin n} {rest : Chain}
  {o : Option (Fin n)}

/-- One step of a walk. -/
def Leads (m : Matching n) (marks : Vector (Option ℕ) n) (c d : Fin n) : Prop :=
  ∃ r : Fin n, m.rowOf.get c = some r.val ∧ marks.get r = some d.val

/-- The walk from one column comes to another. -/
def Visits (m : Matching n) (marks : Vector (Option ℕ) n) : Fin n → Fin n → Prop :=
  Relation.ReflTransGen (Leads m marks)

/-- The walk from a column visits no column twice, however far it is followed. -/
def Unrepeated (m : Matching n) (marks : Vector (Option ℕ) n) (c : Fin n) : Prop :=
  ∀ cs, (c :: cs).IsChain (Leads m marks) → (c :: cs).Nodup

theorem exists_route_or_walk (hrow : ∀ (c : Fin n) (r : ℕ), m.rowOf.get c = some r → r < n)
    (hmarks : ∀ (r : Fin n) (c : ℕ), marks.get r = some c → c < n) (k : ℕ) (c : Fin n) :
    (∃ rest o, Route m marks c rest o) ∨
      ∃ cs, cs.length = k ∧ (c :: cs).IsChain (Leads m marks) := by
  induction k generalizing c with
  | zero => exact .inr ⟨[], rfl, .singleton c⟩
  | succ k ih =>
    cases hc : m.rowOf.get c with
    | none => exact .inl ⟨[], some c, .free hc⟩
    | some i =>
      obtain ⟨r, rfl⟩ : ∃ r : Fin n, i = r := ⟨⟨i, hrow c i hc⟩, rfl⟩
      cases hr : marks.get r with
      | none => exact .inl ⟨_, none, .stuck hc hr⟩
      | some j =>
        obtain ⟨d, rfl⟩ : ∃ d : Fin n, j = d := ⟨⟨j, hmarks r j hr⟩, rfl⟩
        rcases ih d with ⟨rest, o, hroute⟩ | ⟨cs, hlen, hwalk⟩
        · exact .inl ⟨_, o, .step hc hr hroute⟩
        · exact .inr ⟨d :: cs, congrArg Nat.succ hlen, hwalk.cons_cons ⟨r, hc, hr⟩⟩

/-- Steps that are spent on a walk do not show its end. -/
theorem beyond_of_isChain {cs : List (Fin n)} (h : (c :: cs).IsChain (Leads m marks)) :
    beyond m marks cs.length c = .error .circularChain := by
  have hslot {β : Type} (t : Vector β n) (i : Fin n) : slot t i = .ok (t.get i) := slot_of_lt i.isLt
  induction cs generalizing c with
  | nil => rfl
  | cons d cs ih =>
    obtain ⟨⟨r, hc, hr⟩, hrest⟩ := List.isChain_cons_cons.mp h
    simp only [List.length_cons, beyond, hslot, hc, hr, ih hrest]
    rfl

/-- There are only `n` columns to visit. -/
theorem Unrepeated.exists_route (h : Unrepeated m marks c)
    (hrow : ∀ (c : Fin n) (r : ℕ), m.rowOf.get c = some r → r < n)
    (hmarks : ∀ (r : Fin n) (c : ℕ), marks.get r = some c → c < n) :
    ∃ rest o, Route m marks c rest o := by
  refine (exists_route_or_walk hrow hmarks n c).resolve_right ?_
  rintro ⟨cs, hlen, hwalk⟩
  have hcard := (h cs hwalk).length_le_card
  rw [List.length_cons, hlen, Fintype.card_fin] at hcard
  exact Nat.not_succ_le_self n hcard

namespace Route

variable (h : Route m marks c rest o)
include h

/-- From a column on the way a last part of the route leads on to the same end. -/
theorem of_visits (hd : Visits m marks c d) :
    ∃ later, Route m marks d later o ∧ later <:+ rest := by
  induction hd with
  | refl => exact ⟨rest, h, List.suffix_rfl⟩
  | tail _ hl ih =>
    obtain ⟨later, hlater, hsuffix⟩ := ih
    obtain ⟨r, hc, hr⟩ := hl
    cases hlater with
    | free hc' => simp [hc] at hc'
    | stuck hc' hr' =>
      obtain rfl := Fin.ext (Option.some.inj (hc.symm.trans hc'))
      simp [hr] at hr'
    | step hc' hr' hd =>
      obtain rfl := Fin.ext (Option.some.inj (hc.symm.trans hc'))
      obtain rfl := Fin.ext (Option.some.inj (hr.symm.trans hr'))
      exact ⟨_, hd, ((List.suffix_cons _ _).trans (List.suffix_cons _ _)).trans hsuffix⟩

theorem enter_mem {r d : Fin n} (hc : m.rowOf.get c = some r.val)
    (hr : marks.get r = some d.val) : Link.enter r d ∈ rest := by
  cases h with
  | free hc' => simp [hc] at hc'
  | stuck hc' hr' =>
    obtain rfl := Fin.ext (Option.some.inj (hc.symm.trans hc'))
    simp [hr] at hr'
  | step hc' hr' =>
    obtain rfl := Fin.ext (Option.some.inj (hc.symm.trans hc'))
    simp [Option.some.inj (hr.symm.trans hr')]

theorem visits_of_leave {i j : ℕ} (hl : Link.leave i j ∈ rest) :
    ∃ r d : Fin n, i = r ∧ j = d ∧ Visits m marks c d ∧ m.rowOf.get d = some r.val := by
  induction h with
  | free => cases hl
  | stuck hc hr =>
    cases List.mem_singleton.mp hl
    exact ⟨_, _, rfl, rfl, .refl, hc⟩
  | step hc hr hd ih =>
    simp only [List.mem_cons, Link.leave.injEq, reduceCtorEq, false_or] at hl
    rcases hl with ⟨rfl, rfl⟩ | hl
    · exact ⟨_, _, rfl, rfl, .refl, hc⟩
    · obtain ⟨r, d, rfl, rfl, hvisits, hd⟩ := ih hl
      exact ⟨r, d, rfl, rfl, .head ⟨_, hc, hr⟩ hvisits, hd⟩

/-- The walk does not come back to its column. -/
theorem not_visits (hd : Leads m marks c d) : ¬Visits m marks d c := by
  intro hc
  obtain ⟨r, hrow, hr⟩ := hd
  obtain ⟨later, hlater, hsuffix⟩ := h.of_visits (.single ⟨r, hrow, hr⟩)
  obtain ⟨again, hagain, hsuffix'⟩ := hlater.of_visits hc
  obtain ⟨rfl, -⟩ := h.unique hagain
  have heq := hsuffix.eq_of_length_le hsuffix'.length_le
  subst heq
  exact hlater.not_mem_enter r (h.enter_mem hrow hr)

theorem unrepeated : Unrepeated m marks c := by
  intro cs
  induction cs generalizing c rest with
  | nil => exact fun _ ↦ List.nodup_singleton c
  | cons d cs ih =>
    intro hwalk
    obtain ⟨hl, hrest⟩ := List.isChain_cons_cons.mp hwalk
    obtain ⟨later, hlater, -⟩ := h.of_visits (.single hl)
    refine List.nodup_cons.mpr ⟨?_, ih hlater hrest⟩
    intro hmem
    refine h.not_visits hl ?_
    rcases List.mem_cons.mp hmem with rfl | hmem
    · exact .refl
    · have hpairs := (hrest.imp fun _ _ ↦ Relation.ReflTransGen.single).pairwise
      exact List.rel_of_pairwise_cons hpairs hmem

end Route

end LinearAssignment.Chain
