import LinearAssignment.Proofs.Search.Crossing
import LinearAssignment.Proofs.Tableau.Adjusted

/-!
Searches that leave the adjustment after an exchange to the next search for a zero.

Between two turns such a search may be behind the other by one adjustment, which it makes before it
looks at any entry. So both find the same zeros, follow the same chains and report the same.
-/

namespace LinearAssignment

open Cost

namespace Tableau

variable {α : Type} {n : ℕ} [Cost α]

/-- What is done with a marked zero where an exchange of covers is not followed by an adjustment. -/
def placeOnly (t : Tableau α n) (p : Cell n) : Except Fault (Tableau α n × List (Event α)) :=
  match t.matching.colOf.get p.1 with
  | none =>
    (t.augment p.1 p.2).map fun s ↦ (s.coverMatched, [.augmented s.chain.length])
  | some col =>
    if h : col < n then .ok (t.exchange p.1 ⟨col, h⟩, [.rowCovered p.1 p.2])
    else .error (.outOfRange n col)

section Search

variable (put : Tableau α n → Cell n → Except Fault (Tableau α n × List (Event α)))

/-- A turn that finds a zero as `turn` does and places it in a given way. The zero is returned with
what the turn leaves. -/
def turnBy (t : Tableau α n) : Except Fault (Cell n × Tableau α n × List (Event α)) :=
  match t.settle.zero? with
  | none => .error .noZero
  | some p => (put (t.settle.mark p) p).map fun (s, events) ↦ (p, s, t.settleEvents ++ events)

/-- Turns until every column is covered, with the zeros that they find and the chains that they
leave. -/
def turnsBy : ℕ → Tableau α n →
    Except Fault (List (Cell n × Chain) × Tableau α n × List (Event α))
  | limit, t =>
    if t.cover.allCols then .ok ([], t, [])
    else
      match limit with
      | 0 => .error .unfinished
      | limit + 1 =>
        match t.turnBy put with
        | .error f => .error f
        | .ok (p, s, events) =>
          (turnsBy limit s).map fun (found, final, later) ↦
            ((p, s.chain) :: found, final, events ++ later)

def solveBy (t : Tableau α n) : Except Fault (List (Cell n × Chain) × Outcome α n) := do
  let (found, final, events) ← turnsBy put (turnLimit n) t.start
  let total ← CostMatrix.total final.costs.toLists final.matching.pairs
  return (found, ⟨final, total,
    .started n :: .seeded t.start.matching.size n :: events ++ [.finished n total]⟩)

end Search

section Place

variable {t s u : Tableau α n} {events : List (Event α)}

theorem turnBy_place (t : Tableau α n) : (t.turnBy place).map Prod.snd = t.turn := by
  unfold turnBy turn
  cases t.settle.zero? with
  | none => rfl
  | some p =>
    dsimp only
    cases (t.settle.mark p).place p <;> rfl

/-- The turns of the search are those that place a zero by `place`. -/
theorem turnsBy_place (limit : ℕ) (t : Tableau α n) :
    (turnsBy place limit t).map Prod.snd = turns limit t := by
  induction limit generalizing t with
  | zero =>
    unfold turnsBy turns
    cases t.cover.allCols <;> rfl
  | succ limit ih =>
    unfold turnsBy turns
    cases t.cover.allCols with
    | true => rfl
    | false =>
      rw [← turnBy_place t]
      cases t.turnBy place with
      | error f => rfl
      | ok x =>
        obtain ⟨p, s, events⟩ := x
        dsimp only [Except.map, Bool.false_eq_true, if_false]
        rw [← ih s]
        cases turnsBy place limit s <;> rfl

theorem solveBy_place (t : Tableau α n) : (t.solveBy place).map Prod.snd = t.solve := by
  unfold solveBy Tableau.solve
  rw [← turnsBy_place]
  cases turnsBy place (turnLimit n) t.start with
  | error f => rfl
  | ok x =>
    obtain ⟨found, final, events⟩ := x
    change (CostMatrix.total final.costs.toLists final.matching.pairs >>= _).map Prod.snd =
      CostMatrix.total final.costs.toLists final.matching.pairs >>= _
    cases CostMatrix.total final.costs.toLists final.matching.pairs <;> rfl

end Place

section Ahead

variable {t s u : Tableau α n} {p : Cell n} {events : List (Event α)}

theorem placeOnly_of_free (h : t.matching.colOf.get p.1 = none) : t.placeOnly p = t.place p := by
  simp only [placeOnly, place, h]

omit [Cost α] in
theorem placeOnly_exchange {r c d : Fin n} (hd : t.matching.colOf.get r = some d.val) :
    (t.mark (r, c)).placeOnly (r, c) =
      .ok ((t.mark (r, c)).exchange r d, [.rowCovered r c]) := by
  simp only [placeOnly, show (t.mark (r, c)).matching.colOf.get r = some d.val from hd, d.isLt,
    dif_pos]

theorem turnBy_of_ok {put : Tableau α n → Cell n → Except Fault (Tableau α n × List (Event α))}
    (hz : t.settle.zero? = some p) (hp : put (t.settle.mark p) p = .ok (s, events)) :
    t.turnBy put = .ok (p, s, t.settleEvents ++ events) := by
  unfold turnBy
  rw [hz]
  dsimp only
  rw [hp]
  rfl

/-- A search that adjusts after every exchange is ahead of one that does not by the adjustment that
the other has still to make, and by what is reported of it. -/
inductive Ahead : Tableau α n → Tableau α n → List (Event α) → Prop
  | level (t : Tableau α n) : Ahead t t []
  | adjusted {t : Tableau α n} (hcols : t.cover.allCols = false) : Ahead t.adjust t t.adjustEvents

variable {due : List (Event α)}

theorem Ahead.eq_of_allCols (h : Ahead t s due) (hcols : t.cover.allCols = true) :
    s = t ∧ due = [] := by
  cases h with
  | level => exact ⟨rfl, rfl⟩
  | adjusted hs =>
    rw [cover_adjust, hs] at hcols
    cases hcols

theorem Ahead.cover (h : Ahead t s due) : s.cover = t.cover := by
  cases h with
  | level => rfl
  | adjusted => rw [cover_adjust]

variable [Lawful α]

theorem Ahead.ready (h : Ahead t s due) (hs : s.Ready) : t.Ready := by
  cases h with
  | level => exact hs
  | adjusted => exact hs.adjust

/-- The next search for a zero makes up for the adjustment: it changes nothing if a zero is there,
and is made if there is none. -/
theorem Ahead.settle (h : Ahead t s due) (hs : s.Ready) :
    s.settle = t.settle ∧ s.settleEvents = due ++ t.settleEvents := by
  cases h with
  | level => exact ⟨rfl, rfl⟩
  | adjusted hcols =>
    cases hz : s.zero? with
    | some p =>
      obtain ⟨he, hevents⟩ := adjust_eq_self hs.isNumber hz
      rw [he, hevents]
      exact ⟨rfl, rfl⟩
    | none =>
      obtain ⟨p, hp⟩ := hs.zero?_adjust hcols hz
      obtain ⟨hsettle, hevents⟩ := settle_of_zero?_eq_none hz
      obtain ⟨hsettle', hevents'⟩ := settle_of_zero? hp
      rw [hsettle, hsettle', hevents, hevents', List.append_nil]
      exact ⟨rfl, rfl⟩

omit [Lawful α] in
/-- A zero that is placed without the adjustment leaves just the adjustment to be made. -/
theorem Placed.exists_only (h : Placed t s events) (ht : t.Ready) : ∃ p v now later,
    t.zero? = some p ∧ (t.mark p).place p = .ok (s, events) ∧
      (t.mark p).placeOnly p = .ok (v, now) ∧ v.chain = s.chain ∧ v.Ready ∧ Ahead s v later ∧
        events = now ++ later := by
  cases h with
  | @augment r c e rest hz ha hlen =>
    have hplace := place_augment ha hlen
    have honly : (t.mark (r, c)).placeOnly (r, c) = _ := (placeOnly_of_free ha.free).trans hplace
    exact ⟨(r, c), _, _, [], hz, hplace, honly, rfl, ht.augment hz ha, .level _,
      (List.append_nil _).symm⟩
  | @exchange r c d hz hd =>
    obtain ⟨hready, hcols⟩ := ht.of_exchange hz hd
    exact ⟨(r, c), _, [.rowCovered r c], _, hz, place_exchange hd, placeOnly_exchange hd,
      (chain_adjust _).symm, hready, .adjusted hcols, rfl⟩

/-- The same turn in both searches. What the one is ahead by and what it reports come to what the
other reports and is then behind by. -/
theorem Ahead.turn (h : Ahead t s due) (hs : s.Ready) (hcols : t.cover.allCols = false)
    (ht : t.turn = .ok (u, events)) : ∃ p v now later,
      t.turnBy place = .ok (p, u, events) ∧ s.turnBy placeOnly = .ok (p, v, now) ∧
        v.chain = u.chain ∧ v.Ready ∧ Ahead u v later ∧ due ++ events = now ++ later := by
  have hready := h.ready hs
  obtain ⟨hsettle, hevents⟩ := h.settle hs
  obtain ⟨placed, rfl, hplaced⟩ := hready.placed_of_turn hcols ht
  obtain ⟨p, v, now, later, hz, hplace, honly, hchain, hv, hahead, rfl⟩ :=
    hplaced.exists_only hready.settle
  refine ⟨p, v, s.settleEvents ++ now, later, turnBy_of_ok hz hplace, ?_, hchain, hv, hahead, ?_⟩
  · apply turnBy_of_ok
    · rw [hsettle, hz]
    · rw [hsettle, honly]
  · rw [hevents]
    simp only [List.append_assoc]

/-- From there both searches come to the same end, with the same zeros and the same chains. -/
theorem Run.exists_found {k limit : ℕ} (h : Run k t events u) (hend : u.cover.allCols = true)
    (hk : k ≤ limit) (hahead : Ahead t s due) (hs : s.Ready) :
    ∃ found, turnsBy place limit t = .ok (found, u, events) ∧
      turnsBy placeOnly limit s = .ok (found, u, due ++ events) := by
  induction h generalizing limit s due with
  | zero t =>
    obtain ⟨rfl, rfl⟩ := hahead.eq_of_allCols hend
    refine ⟨[], ?_, ?_⟩ <;> unfold turnsBy <;> rw [if_pos hend]
    rfl
  | @cons k t w u first events hcols hturn hrun ih =>
    cases limit with
    | zero => omega
    | succ limit =>
      obtain ⟨p, v, now, later, ht, hv, hchain, hready, hnext, hevents⟩ :=
        hahead.turn hs hcols hturn
      obtain ⟨found, hfound, hfound'⟩ := ih hend (Nat.le_of_succ_le_succ hk) hnext hready
      refine ⟨(p, w.chain) :: found, ?_, ?_⟩
      · unfold turnsBy
        rw [if_neg (by simp [hcols]), ht]
        dsimp only
        rw [hfound]
        rfl
      · unfold turnsBy
        rw [if_neg (by simp [hahead.cover, hcols]), hv]
        dsimp only
        rw [hfound', hchain, ← List.append_assoc, hevents, List.append_assoc]
        rfl

end Ahead

/-- How zeros are placed matters to a search through its turns alone. -/
theorem solveBy_congr {put put' : Tableau α n → Cell n → Except Fault (Tableau α n × List (Event α))}
    {t : Tableau α n} (h : turnsBy put (turnLimit n) t.start = turnsBy put' (turnLimit n) t.start) :
    t.solveBy put = t.solveBy put' := by
  unfold solveBy
  rw [h]

theorem Reaches.exists_found [Lawful α] {t : Tableau α n} {k : ℕ} {events : List (Event α)}
    {o : Outcome α n} {π : Equiv.Perm (Fin n)} (h : Reaches t k events o π) (ht : t.start.Ready) :
    ∃ found, t.solveBy place = .ok (found, o) ∧ t.solveBy placeOnly = .ok (found, o) := by
  obtain ⟨found, hplace, honly⟩ :=
    h.run.exists_found h.allCols (h.run.le_turnLimit ht) (.level t.start) ht
  have hsame : t.solveBy placeOnly = t.solveBy place := by
    apply solveBy_congr
    rw [hplace, honly, List.nil_append]
  have hsolve := (solveBy_place t).trans h.solve
  cases hby : t.solveBy place with
  | error f =>
    rw [hby] at hsolve
    cases hsolve
  | ok x =>
    obtain ⟨found, o'⟩ := x
    rw [hby] at hsolve
    obtain rfl : o' = o := Except.ok.inj hsolve
    exact ⟨found, rfl, hsame.trans hby⟩

end Tableau

namespace CostMatrix

open Tableau

/-- The adjustment after an exchange can be left out. The search then finds the same zeros and follows
the same chains, and comes to the same outcome with the same events in the same order. -/
theorem exchange_without_adjustment {costs : CostMatrix Float} {t : Tableau Float costs.length}
    (h : costs.tableau = .ok t) :
    ∃ found o, costs.solve = .ok o ∧ t.solveBy place = .ok (found, o) ∧
      t.solveBy placeOnly = .ok (found, o) := by
  have hstart := ready_start h
  obtain ⟨k, events, o, π, ho⟩ := hstart.exists_outcome
  obtain ⟨found, hplace, honly⟩ := ho.exists_found hstart
  exact ⟨found, o, solve_of_tableau h ho.solve, hplace, honly⟩

/-- Between the exchange and the next search for a zero the two searches differ. -/
theorem exchange_without_adjustment_contested :
    contested.tableau = .ok contestedTableau ∧
      (contestedCovered.adjust.grid 2 0 == contestedCovered.grid 2 0) = false ∧
      ∃ o, contested.solve = .ok o ∧
        contestedTableau.solveBy placeOnly =
          .ok ([((0, 2), []), ((2, 0), [.enter 2 0, .leave 0 0, .enter 0 2])], o) := by
  obtain ⟨found, o, ho, -, honly⟩ := exchange_without_adjustment tableau_contested
  have hfound : (contestedTableau.solveBy placeOnly).toOption.map Prod.fst =
      some [((0, 2), []), ((2, 0), [.enter 2 0, .leave 0 0, .enter 0 2])] := by decide +kernel
  have hsome := congrArg (fun x ↦ x.toOption.map Prod.fst) honly
  obtain rfl := Option.some.inj (hsome.symm.trans hfound)
  exact ⟨tableau_contested, by decide +kernel, o, ho, honly⟩

end CostMatrix

end LinearAssignment
