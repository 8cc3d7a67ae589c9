import LinearAssignment.Proofs.Search.Outcome
import LinearAssignment.Proofs.Tableau.Phase

/-!
The search call by call.

A path shows the tableau between any two calls of a search, together with the call that is due. The
runs of the search are paths, and on a path every call finds what it relies on.
-/

namespace LinearAssignment

open Chain Cost

namespace Tableau

variable {α : Type} {n : ℕ} [Cost α]

/-- What a call that is due makes of a tableau, what is reported of it, and the call that is due
next. While a column is uncovered a zero is looked for; what follows depends on the row of the zero,
and an adjustment follows if there is none. -/
inductive Step : Phase n → Tableau α n → List (Event α) → Phase n → Tableau α n → Prop
  | reduce (t : Tableau α n) : Step .reduce t [] .extend t.reduce
  | extend (t : Tableau α n) : Step .extend t [] .coverMatched t.extend
  | coverMatched (t : Tableau α n) : Step .coverMatched t [] .markZero t.coverMatched
  | missed {t : Tableau α n} (hcols : t.cover.allCols = false) (hz : t.zero? = none) :
      Step .markZero t [] .adjust t
  | free {t : Tableau α n} {r c : Fin n} (hcols : t.cover.allCols = false)
      (hz : t.zero? = some (r, c)) (hr : t.matching.colOf.get r = none) :
      Step .markZero t [] (.augment r c) (t.mark (r, c))
  | matched {t : Tableau α n} {r c d : Fin n} (hcols : t.cover.allCols = false)
      (hz : t.zero? = some (r, c)) (hd : t.matching.colOf.get r = some d.val) :
      Step .markZero t [.rowCovered r c] (.cover (t.cover.exchange r d)) (t.mark (r, c))
  | adjust (t : Tableau α n) : Step .adjust t t.adjustEvents .markZero t.adjust
  | augment {t s : Tableau α n} {r c : Fin n} (h : t.augment r c = .ok s) :
      Step (.augment r c) t [.augmented s.chain.length] .coverMatched s
  | cover (k : Cover n) (t : Tableau α n) : Step (.cover k) t [] .adjust { t with cover := k }

/-- Calls from one tableau to another, and what is reported of them. -/
inductive Path (p : Phase n) (t : Tableau α n) : List (Event α) → Phase n → Tableau α n → Prop
  | refl : Path p t [] p t
  | tail {q u : Phase n} {s v : Tableau α n} {events later : List (Event α)}
      (h : Path p t events q s) (hs : Step q s later u v) : Path p t (events ++ later) u v

/-- What a call that is due relies on: the tableau is ready, or the calls before the next search for
a zero will make it so. -/
inductive Due : Phase n → Tableau α n → Prop
  | reduce {t : Tableau α n} (h : t.start.Ready) : Due .reduce t
  | extend {t : Tableau α n} (h : t.extend.coverMatched.Ready) : Due .extend t
  | coverMatched {t : Tableau α n} (h : t.coverMatched.Ready) : Due .coverMatched t
  | markZero {t : Tableau α n} (h : t.Ready) : Due .markZero t
  | adjust {t : Tableau α n} (h : t.Ready) (hcols : t.cover.allCols = false) : Due .adjust t
  | augment {t : Tableau α n} {r c : Fin n} (h : t.Ready) (hcols : t.cover.allCols = false)
      (hz : t.zero? = some (r, c)) (hr : t.matching.colOf.get r = none) :
      Due (.augment r c) (t.mark (r, c))
  | cover {t : Tableau α n} {r c d : Fin n} (h : t.Ready) (hcols : t.cover.allCols = false)
      (hz : t.zero? = some (r, c)) (hd : t.matching.colOf.get r = some d.val) :
      Due (.cover (t.cover.exchange r d)) (t.mark (r, c))

section Step

variable {p q q' : Phase n} {t s s' : Tableau α n} {events events' : List (Event α)}

theorem Step.unique (h : Step p t events q s) (h' : Step p t events' q' s') :
    events = events' ∧ q = q' ∧ s = s' := by
  cases h with
  | missed hcols hz =>
    cases h' with
    | missed => exact ⟨rfl, rfl, rfl⟩
    | free _ hz' => cases hz.symm.trans hz'
    | matched _ hz' => cases hz.symm.trans hz'
  | free hcols hz hr =>
    cases h' with
    | missed _ hz' => cases hz.symm.trans hz'
    | free _ hz' =>
      cases hz.symm.trans hz'
      exact ⟨rfl, rfl, rfl⟩
    | matched _ hz' hd' =>
      cases hz.symm.trans hz'
      cases hr.symm.trans hd'
  | matched hcols hz hd =>
    cases h' with
    | missed _ hz' => cases hz.symm.trans hz'
    | free _ hz' hr' =>
      cases hz.symm.trans hz'
      cases hd.symm.trans hr'
    | matched _ hz' hd' =>
      cases hz.symm.trans hz'
      obtain rfl := Fin.ext (Option.some.inj (hd.symm.trans hd'))
      exact ⟨rfl, rfl, rfl⟩
  | augment h =>
    cases h' with
    | augment h' =>
      cases h.symm.trans h'
      exact ⟨rfl, rfl, rfl⟩
  | _ =>
    cases h'
    exact ⟨rfl, rfl, rfl⟩

theorem Step.ne_reduce (h : Step p t events q s) : q ≠ .reduce := by
  cases h <;> exact nofun

theorem Step.allCols (h : Step .markZero t events q s) : ¬t.cover.allCols = true := by
  rw [Bool.not_eq_true]
  cases h with
  | missed hcols => exact hcols
  | free hcols => exact hcols
  | matched hcols => exact hcols

theorem Ready.augment_eq (h : t.Ready) {r c : Fin n} (hz : t.zero? = some (r, c))
    (hr : t.matching.colOf.get r = none) : ∃ e rest,
      Augmenting t.matching (t.mark (r, c)).marks r c e rest ∧
        (t.mark (r, c)).augment r c = .ok ((t.mark (r, c)).along (.enter r c :: rest)) := by
  obtain ⟨e, rest, ha, -⟩ := h.exists_augmenting hz hr
  exact ⟨e, rest, ha, augment_of_route (t := t.mark (r, c)) ha.route⟩

/-- The column that an exchange lays open keeps the search going. -/
theorem Ready.of_exchange (h : t.Ready) {r c d : Fin n} (hz : t.zero? = some (r, c))
    (hd : t.matching.colOf.get r = some d.val) : ((t.mark (r, c)).exchange r d).Ready ∧
      ((t.mark (r, c)).exchange r d).cover.allCols = false := by
  refine ⟨h.exchange hz hd, ?_⟩
  rw [← Bool.not_eq_true, Cover.allCols_eq_true]
  intro hall
  have hcol := hall d
  rw [cols_mark_exchange, if_pos rfl] at hcol
  cases hcol

variable [Lawful α]

theorem Step.due (h : Step p t events q s) (hp : Due p t) : Due q s := by
  cases h with
  | reduce =>
    cases hp with
    | reduce h => exact .extend h
  | extend =>
    cases hp with
    | extend h => exact .coverMatched h
  | coverMatched =>
    cases hp with
    | coverMatched h => exact .markZero h
  | missed hcols =>
    cases hp with
    | markZero h => exact .adjust h hcols
  | free hcols hz hr =>
    cases hp with
    | markZero h => exact .augment h hcols hz hr
  | matched hcols hz hd =>
    cases hp with
    | markZero h => exact .cover h hcols hz hd
  | adjust =>
    cases hp with
    | adjust h => exact .markZero h.adjust
  | augment hs =>
    cases hp with
    | augment h hcols hz hr =>
      obtain ⟨e, rest, ha, hs'⟩ := h.augment_eq hz hr
      cases hs.symm.trans hs'
      exact .coverMatched (h.augment hz ha)
  | cover =>
    cases hp with
    | cover h hcols hz hd =>
      obtain ⟨hready, hcols'⟩ := h.of_exchange hz hd
      exact .adjust hready hcols'

omit [Lawful α] in
/-- A call that is due is made, unless the search is over. -/
theorem Due.exists_step (h : Due p t) :
    p = .markZero ∧ t.cover.allCols = true ∨ ∃ events q s, Step p t events q s := by
  cases h with
  | reduce => exact .inr ⟨_, _, _, .reduce t⟩
  | extend => exact .inr ⟨_, _, _, .extend t⟩
  | coverMatched => exact .inr ⟨_, _, _, .coverMatched t⟩
  | markZero h =>
    cases hcols : t.cover.allCols with
    | true => exact .inl ⟨rfl, rfl⟩
    | false =>
      cases hz : t.zero? with
      | none => exact .inr ⟨_, _, _, .missed hcols hz⟩
      | some p =>
        obtain ⟨r, c⟩ := p
        cases hr : t.matching.colOf.get r with
        | none => exact .inr ⟨_, _, _, .free hcols hz hr⟩
        | some d =>
          exact .inr ⟨_, _, _, .matched (d := ⟨d, h.consistent.col_lt r d hr⟩) hcols hz hr⟩
  | adjust => exact .inr ⟨_, _, _, .adjust t⟩
  | augment h hcols hz hr =>
    obtain ⟨e, rest, -, hs⟩ := h.augment_eq hz hr
    exact .inr ⟨_, _, _, .augment hs⟩
  | cover => exact .inr ⟨_, _, _, .cover _ _⟩

end Step

namespace Path

variable {p q u : Phase n} {t s v : Tableau α n} {events later : List (Event α)}

theorem one (h : Step p t events q s) : Path p t events q s := .tail .refl h

theorem trans (h : Path p t events q s) (h' : Path q s later u v) :
    Path p t (events ++ later) u v := by
  induction h' with
  | refl => simpa using h
  | tail _ hs ih => simpa only [List.append_assoc] using ih.tail hs

theorem head_cases (h : Path p t events q s) : events = [] ∧ p = q ∧ t = s ∨
    ∃ first later u v, events = first ++ later ∧ Step p t first u v ∧ Path u v later q s := by
  induction h with
  | refl => exact .inl ⟨rfl, rfl, rfl⟩
  | tail _ hs ih =>
    rcases ih with ⟨rfl, rfl, rfl⟩ | ⟨first, later, u, v, rfl, hfirst, hlater⟩
    · exact .inr ⟨_, [], _, _, (List.append_nil _).symm, hs, .refl⟩
    · exact .inr ⟨first, _, u, v, List.append_assoc .., hfirst, hlater.tail hs⟩

/-- A path that cannot be continued leads on from every path from the same tableau. -/
theorem resume (h : Path p t events q s) (h' : Path p t later u v)
    (hend : ∀ events q s, ¬Step u v events q s) :
    ∃ rest, later = events ++ rest ∧ Path q s rest u v := by
  induction h with
  | refl => exact ⟨later, rfl, h'⟩
  | tail _ hs ih =>
    obtain ⟨rest, rfl, hrest⟩ := ih
    rcases hrest.head_cases with ⟨-, rfl, rfl⟩ | ⟨first, rest, u', v', rfl, hfirst, hrest⟩
    · exact absurd hs (hend _ _ _)
    · obtain ⟨rfl, rfl, rfl⟩ := hs.unique hfirst
      exact ⟨rest, (List.append_assoc ..).symm, hrest⟩

theorem eq_of_end (h : Path p t events q s) (h' : Path p t later u v)
    (hs : ∀ events u v, ¬Step q s events u v) (hv : ∀ events q s, ¬Step u v events q s) :
    events = later ∧ q = u ∧ s = v := by
  obtain ⟨rest, rfl, hrest⟩ := h.resume h' hv
  rcases hrest.head_cases with ⟨rfl, rfl, rfl⟩ | ⟨_, _, _, _, _, hfirst, _⟩
  · exact ⟨(List.append_nil _).symm, rfl, rfl⟩
  · exact absurd hfirst (hs _ _ _)

theorem due [Lawful α] (h : Path p t events q s) (hp : Due p t) : Due q s := by
  induction h with
  | refl => exact hp
  | tail _ hs ih => exact hs.due ih

theorem eq_of_reduce (h : Path p t events .reduce s) : p = .reduce ∧ events = [] ∧ s = t := by
  cases h with
  | refl => exact ⟨rfl, rfl, rfl⟩
  | tail _ hs => exact absurd rfl hs.ne_reduce

/-- What every call after the reduction keeps, of the tableau, of the call that is due and of what
has been reported, holds at the end of a path. -/
theorem invariant [Lawful α] {I : List (Event α) → Phase n → Tableau α n → Prop}
    (before : List (Event α))
    (step : ∀ {before events : List (Event α)} {p q : Phase n} {t s : Tableau α n},
      Step p t events q s → Due p t → p ≠ .reduce → I before p t → I (before ++ events) q s)
    (h : Path p t events q s) (hp : Due p t) (hne : p ≠ .reduce) (hI : I before p t) :
    I (before ++ events) q s := by
  induction h with
  | refl => simpa using hI
  | @tail q _ _ _ _ _ h hs ih =>
    rw [← List.append_assoc]
    refine step hs (h.due hp) ?_ ih
    rintro rfl
    exact hne h.eq_of_reduce.1

theorem of_ne_reduce (h : Path .reduce t events q s) (hq : q ≠ .reduce) :
    Path .extend t.reduce events q s := by
  induction h with
  | refl => exact absurd rfl hq
  | @tail q _ s _ events later h hs ih =>
    by_cases hq : q = .reduce
    · subst hq
      obtain ⟨-, rfl, rfl⟩ := h.eq_of_reduce
      cases hs
      exact .refl
    · exact (ih hq).tail hs

end Path

section Run

variable {t s : Tableau α n} {events : List (Event α)}

theorem path_settle (hcols : t.cover.allCols = false) :
    Path .markZero t t.settleEvents .markZero t.settle := by
  cases hz : t.zero? with
  | some p =>
    obtain ⟨hsettle, hevents⟩ := settle_of_zero? hz
    rw [hsettle, hevents]
    exact .refl
  | none =>
    obtain ⟨hsettle, hevents⟩ := settle_of_zero?_eq_none hz
    rw [hsettle, hevents]
    exact (Path.one (.missed hcols hz)).tail (.adjust t)

theorem Placed.path (h : Placed t s events) (hcols : t.cover.allCols = false) :
    Path .markZero t events .markZero s := by
  cases h with
  | @augment r c e rest hz ha hlen =>
    have hs : (t.mark (r, c)).augment r c = .ok ((t.mark (r, c)).along (.enter r c :: rest)) :=
      augment_of_route (t := t.mark (r, c)) ha.route
    exact ((Path.one (.free hcols hz ha.free)).tail (.augment hs)).tail (.coverMatched _)
  | exchange hz hd =>
    exact ((Path.one (.matched hcols hz hd)).tail (.cover _ _)).tail (.adjust _)

variable [Lawful α]

theorem Run.path {k : ℕ} (h : Run k t events s) (ht : t.Ready) :
    Path .markZero t events .markZero s := by
  induction h with
  | zero => exact .refl
  | cons hcols hs _ ih =>
    obtain ⟨later, rfl, hplaced⟩ := ht.placed_of_turn hcols hs
    have hsettled := hplaced.path (by rwa [cover_settle])
    exact ((path_settle hcols).trans hsettled).trans (ih (ht.of_turn hcols hs).1)

omit [Lawful α] in
theorem path_start (t : Tableau α n) : Path .reduce t [] .markZero t.start :=
  ((Path.one (.reduce t)).tail (.extend _)).tail (.coverMatched _)

/-- A search that succeeds is a path to the end. -/
theorem Reaches.path {k : ℕ} {o : Outcome α n} {π : Equiv.Perm (Fin n)}
    (h : Reaches t k events o π) (ht : t.start.Ready) :
    Path .reduce t events .markZero o.tableau :=
  (path_start t).trans (h.run.path ht)

/-- The calls that lead to an outcome: whatever calls are made from the beginning, the others follow
until every column is covered, and the outcome reports all of them. -/
structure LeadsTo (t : Tableau α n) (o : Outcome α n) : Prop where
  solve : t.solve = .ok o
  allCols : o.tableau.cover.allCols = true
  rest {events : List (Event α)} {p : Phase n} {s : Tableau α n} (h : Path .reduce t events p s) :
    ∃ later, Path p s later .markZero o.tableau ∧ o.events =
      .started n :: .seeded t.start.matching.size n :: (events ++ later) ++ [.finished n o.total]

theorem Reaches.leadsTo {k : ℕ} {o : Outcome α n} {π : Equiv.Perm (Fin n)}
    (h : Reaches t k events o π) (ht : t.start.Ready) : t.LeadsTo o where
  solve := h.solve
  allCols := h.allCols
  rest hpath := by
    have hend (events : List (Event α)) (q : Phase n) (s : Tableau α n) :
        ¬Step .markZero o.tableau events q s := fun hs ↦ hs.allCols h.allCols
    obtain ⟨later, rfl, hlater⟩ := hpath.resume (h.path ht) hend
    exact ⟨later, hlater, h.events⟩

end Run

end Tableau

namespace CostMatrix

open Tableau

theorem exists_leadsTo {α : Type} [Cost α] [Lawful α] {costs : CostMatrix α}
    {t : Tableau α costs.length} (h : costs.tableau = .ok t) :
    ∃ o, costs.solve = .ok o ∧ t.LeadsTo o := by
  have hstart := ready_start h
  obtain ⟨k, events, o, π, ho⟩ := hstart.exists_outcome
  exact ⟨o, solve_of_tableau h ho.solve, ho.leadsTo hstart⟩

end CostMatrix

end LinearAssignment
