import Zeppelin.Driver.Aspen
import Zeppelin.Driver.TerraceGraph
import Zeppelin.Machine.Polling

/-! `continuous_query_test` of Aspen and Terrace: the loop of `ingestion_test`, polled
by `log_count`. A query is made before the update of its iteration is read; the
flush and the last query follow the loop. The labels and times that are written
for a query, clock readings and the timeout are left out. -/
namespace Zeppelin.Driver

open Zeppelin.Stream Batching

/-- `round(num_updates / query_interval)`: the quotient passes through a `double`.
`none` is a division by zero or a double that is no `unsigned long`. -/
def queryInterval (numUpdates queries : Nat) : Option Nat :=
  if queries = 0 then none
  else
    let interval := Word.toDouble (numUpdates / queries)
    if interval < 2 ^ 64 then some interval else none

/-- The loop with its queries, and the calls after the flush. -/
def Aspen.continuousQueryTest (sortUpdates : SortUpdates) (returns : List Call → List Arc → Bool)
    (updateBatchSize queries : Nat) (results : List (Option Edge)) :
    Option (Polling.State Aspen.State × List Aspen.Call) := do
  let interval ← queryInterval results.length queries
  let loop ← Run.run (Polling.step interval (State.step sortUpdates updateBatchSize))
    (Polling.start (init updateBatchSize)) results
  let calls ← loop.inner.flush returns
  return (loop, calls)

def Terrace.continuousQueryTest (library : Library) (updateBatchSize queries : Nat)
    (results : List (Option Edge)) : Option (Polling.State Terrace.State × List Terrace.Call) := do
  let interval ← queryInterval results.length queries
  let loop ← Run.run (Polling.step interval (State.step library updateBatchSize))
    (Polling.start (init updateBatchSize)) results
  return (loop, loop.inner.flush.calls)

section Schedule

/-- When query `k`, counted from 0, is to be made in the loop. -/
def queryDue (numUpdates interval k : Nat) : Option Nat :=
  if (k + 1) * interval < numUpdates then some ((k + 1) * interval) else none

/-- The queries come at the multiples of the exact quotient, and only there. -/
def QueriesOnTime (numUpdates queries : Nat) (polls : List Nat) : Prop :=
  ∀ k, polls[k]? = queryDue numUpdates (numUpdates / queries) k

variable {numUpdates queries interval : Nat}

/-- A second query would be late, so the first one must be the last. -/
theorem halves_of_onTime (several : 1 < queries) (most : queries ≤ numUpdates)
    (same : ∀ k, Polling.pollAt interval numUpdates k = queryDue numUpdates (numUpdates / queries) k) :
    queries = 2 ∧ numUpdates % 2 = 0 ∧ interval = numUpdates / 2 := by
  have positive : 0 < numUpdates / queries := Nat.div_pos most (by omega)
  have total := Nat.div_mul_le_self numUpdates queries
  have twice : 2 * (numUpdates / queries) ≤ numUpdates / queries * queries := by
    rw [Nat.mul_comm]
    exact Nat.mul_le_mul_left _ several
  have first := same 0
  simp only [Polling.pollAt, queryDue, Nat.zero_add, Nat.one_mul] at first
  rw [if_pos (show numUpdates / queries < numUpdates by omega)] at first
  split at first
  · have exact : interval = numUpdates / queries := Option.some.inj first
    subst exact
    have last : numUpdates ≤ 2 * (numUpdates / queries) := by
      by_contra more
      have second := same 1
      rw [queryDue, if_pos (by omega), Polling.pollAt] at second
      split at second
      · have := Option.some.inj second
        omega
      · cases second
    have atMost : numUpdates / queries * queries ≤ numUpdates / queries * 2 := by omega
    obtain rfl : queries = 2 := Nat.le_antisymm (Nat.le_of_mul_le_mul_left atMost positive) several
    exact ⟨rfl, by omega, rfl⟩
  · cases first

theorem onTime_of_large (large : numUpdates ≤ interval) (k : Nat) :
    Polling.pollAt interval numUpdates k = queryDue numUpdates numUpdates k := by
  have period : interval + 1 ≤ (k + 1) * (interval + 1) := Nat.le_mul_of_pos_left _ (Nat.succ_pos k)
  have whole : numUpdates ≤ (k + 1) * numUpdates := Nat.le_mul_of_pos_left _ (Nat.succ_pos k)
  rw [Polling.pollAt, queryDue, if_neg (by omega), if_neg (by omega)]

theorem onTime_of_halves (positive : 0 < numUpdates) (even : numUpdates % 2 = 0) (k : Nat) :
    Polling.pollAt (numUpdates / 2) numUpdates k = queryDue numUpdates (numUpdates / 2) k := by
  rw [Polling.pollAt, queryDue]
  cases k with
  | zero =>
    simp only [Nat.zero_add, Nat.one_mul]
    rw [if_pos (by omega), if_pos (by omega), Nat.add_sub_cancel]
  | succ k =>
    have half : 2 * (numUpdates / 2) ≤ (k + 1 + 1) * (numUpdates / 2) :=
      Nat.mul_le_mul_right _ (by omega)
    have period : (k + 1 + 1) * (numUpdates / 2 + 1) = (k + 1 + 1) * (numUpdates / 2) + (k + 1 + 1) :=
      Nat.mul_succ _ _
    rw [if_neg (by omega), if_neg (by omega)]

/-- A period that is one too long is right for at most one query. -/
theorem onTime_iff (positive : 1 ≤ queries) (most : queries ≤ numUpdates) :
    (∀ k, Polling.pollAt interval numUpdates k = queryDue numUpdates (numUpdates / queries) k) ↔
      queries = 1 ∧ numUpdates ≤ interval ∨
        queries = 2 ∧ numUpdates % 2 = 0 ∧ interval = numUpdates / 2 := by
  constructor
  · intro same
    rcases Nat.lt_or_ge 1 queries with several | one
    · exact Or.inr (halves_of_onTime several most same)
    · obtain rfl : queries = 1 := Nat.le_antisymm one positive
      have first := same 0
      simp only [Polling.pollAt, queryDue, Nat.zero_add, Nat.one_mul, Nat.div_one,
        if_neg (Nat.lt_irrefl numUpdates)] at first
      split at first
      · cases first
      · exact Or.inl ⟨rfl, by omega⟩
  · rintro (⟨rfl, large⟩ | ⟨rfl, even, rfl⟩)
    · rw [Nat.div_one]
      exact onTime_of_large large
    · exact onTime_of_halves (by omega) even

/-- The loop with queries hands over what it hands over without them. -/
theorem Aspen.continuousQueryTest_of_interval {sortUpdates : SortUpdates}
    {returns : List Call → List Arc → Bool} {updateBatchSize queries interval : Nat}
    {results : List (Option Edge)} {calls : List Call}
    (ingested : ingestionTest sortUpdates returns updateBatchSize results = some calls)
    (rounded : queryInterval results.length queries = some interval) :
    ∃ loop, continuousQueryTest sortUpdates returns updateBatchSize queries results = some (loop, calls) ∧
      Polling.After interval results.length loop := by
  obtain ⟨t, reached, flushed⟩ := Option.bind_eq_some_iff.mp ingested
  obtain ⟨loop, ended, rfl, after⟩ := Polling.run_start interval reached
  refine ⟨loop, ?_, after⟩
  simp only [continuousQueryTest, rounded, ended, flushed, Option.bind_eq_bind, Option.bind_some]
  rfl

theorem Terrace.continuousQueryTest_of_interval {library : Library} {updateBatchSize queries interval : Nat}
    {results : List (Option Edge)} {calls : List Call}
    (ingested : ingestionTest library updateBatchSize results = some calls)
    (rounded : queryInterval results.length queries = some interval) :
    ∃ loop, continuousQueryTest library updateBatchSize queries results = some (loop, calls) ∧
      Polling.After interval results.length loop := by
  obtain ⟨t, reached, rfl⟩ := Option.map_eq_some_iff.mp ingested
  obtain ⟨loop, ended, rfl, after⟩ := Polling.run_start interval reached
  refine ⟨loop, ?_, after⟩
  simp only [continuousQueryTest, rounded, ended, Option.bind_eq_bind, Option.bind_some]
  rfl

/-- One query that is not to be made before the end, or two halves of a stream whose
length the double keeps. -/
def RightPeriod (numUpdates queries : Nat) : Prop :=
  queries = 1 ∧ numUpdates ≤ Word.toDouble numUpdates ∧ Word.toDouble numUpdates < 2 ^ 64 ∨
    queries = 2 ∧ numUpdates % 2 = 0 ∧ Word.toDouble (numUpdates / 2) = numUpdates / 2

theorem queryInterval_eq (positive : 1 ≤ queries) :
    queryInterval numUpdates queries =
      if Word.toDouble (numUpdates / queries) < 2 ^ 64 then some (Word.toDouble (numUpdates / queries))
      else none :=
  if_neg (Nat.ne_of_gt positive)

/-- The condition in terms of the interval. -/
theorem rightPeriod_iff (word : numUpdates < 2 ^ 64) :
    RightPeriod numUpdates queries ↔ Word.toDouble (numUpdates / queries) < 2 ^ 64 ∧
      (queries = 1 ∧ numUpdates ≤ Word.toDouble (numUpdates / queries) ∨
        queries = 2 ∧ numUpdates % 2 = 0 ∧ Word.toDouble (numUpdates / queries) = numUpdates / 2) := by
  constructor
  · rintro (⟨rfl, large, small⟩ | ⟨rfl, even, exact⟩)
    · rw [Nat.div_one]
      exact ⟨small, Or.inl ⟨rfl, large⟩⟩
    · exact ⟨by omega, Or.inr ⟨rfl, even, exact⟩⟩
  · rintro ⟨small, ⟨rfl, large⟩ | ⟨rfl, even, exact⟩⟩
    · rw [Nat.div_one] at small large
      exact Or.inl ⟨rfl, large, small⟩
    · exact Or.inr ⟨rfl, even, exact⟩

/-- A driver that is polled with the interval, and is not run without one. -/
theorem polled_iff {S C : Type} {outcome : Option (Polling.State S × C)} (positive : 1 ≤ queries)
    (most : queries ≤ numUpdates) (word : numUpdates < 2 ^ 64)
    (without : queryInterval numUpdates queries = none → outcome = none)
    (polled : ∀ interval, queryInterval numUpdates queries = some interval →
      ∃ loop calls, outcome = some (loop, calls) ∧ Polling.After interval numUpdates loop) :
    (∃ loop calls, outcome = some (loop, calls) ∧ QueriesOnTime numUpdates queries loop.polls) ↔
      RightPeriod numUpdates queries := by
  rw [rightPeriod_iff word]
  by_cases fits : Word.toDouble (numUpdates / queries) < 2 ^ 64
  · obtain ⟨loop, calls, ended, after⟩ := polled _ ((queryInterval_eq positive).trans (if_pos fits))
    have onTime : QueriesOnTime numUpdates queries loop.polls ↔ _ :=
      (forall_congr' fun k => by rw [after.getElem?_polls]).trans (onTime_iff positive most)
    constructor
    · rintro ⟨loop', calls', ended', schedule⟩
      cases ended.symm.trans ended'
      exact ⟨fits, onTime.mp schedule⟩
    · rintro ⟨-, right⟩
      exact ⟨loop, calls, ended, onTime.mpr right⟩
  · have none := without ((queryInterval_eq positive).trans (if_neg fits))
    constructor
    · rintro ⟨loop, calls, ended, -⟩
      cases none.symm.trans ended
    · rintro ⟨small, -⟩
      exact absurd small fits

/-- The counter is reset instead of counted in the iteration of a query, so the
schedule is late from the second query on. -/
theorem queriesOnTime_iff (results : List (Option Edge)) (queries : Nat) (positive : 1 ≤ queries)
    (most : queries ≤ results.length) (word : results.length < 2 ^ 64) :
    (∀ sortUpdates returns updateBatchSize calls,
      Aspen.ingestionTest sortUpdates returns updateBatchSize results = some calls →
        ((∃ loop calls, Aspen.continuousQueryTest sortUpdates returns updateBatchSize queries results =
              some (loop, calls) ∧
            QueriesOnTime results.length queries loop.polls) ↔
          RightPeriod results.length queries)) ∧
    ∀ library updateBatchSize calls, Terrace.ingestionTest library updateBatchSize results = some calls →
      ((∃ loop calls, Terrace.continuousQueryTest library updateBatchSize queries results =
            some (loop, calls) ∧
          QueriesOnTime results.length queries loop.polls) ↔ RightPeriod results.length queries) := by
  constructor
  · intro sortUpdates returns updateBatchSize calls ingested
    refine polled_iff positive most word (fun none => ?_) (fun interval rounded => ?_)
    · rw [Aspen.continuousQueryTest, none]
      rfl
    · obtain ⟨loop, ended, after⟩ := Aspen.continuousQueryTest_of_interval ingested rounded
      exact ⟨loop, calls, ended, after⟩
  · intro library updateBatchSize calls ingested
    refine polled_iff positive most word (fun none => ?_) (fun interval rounded => ?_)
    · rw [Terrace.continuousQueryTest, none]
      rfl
    · obtain ⟨loop, ended, after⟩ := Terrace.continuousQueryTest_of_interval ingested rounded
      exact ⟨loop, calls, ended, after⟩

/-- Two queries in a stream of four updates. -/
theorem queriesOnTime_halves :
    (∃ loop calls, Aspen.continuousQueryTest .sample Aspen.insertReturns 1 2 (List.replicate 4 (some ⟨1, 2, 0⟩)) =
        some (loop, calls) ∧ QueriesOnTime 4 2 loop.polls) ∧
      ∃ loop calls, Terrace.continuousQueryTest Terrace.Library.sample 1 2
          (List.replicate 4 (some ⟨1, 2, 0⟩)) = some (loop, calls) ∧ QueriesOnTime 4 2 loop.polls :=
  have both := queriesOnTime_iff (List.replicate 4 (some ⟨1, 2, 0⟩)) 2 (by decide) (by decide) (by decide)
  ⟨(both.1 .sample Aspen.insertReturns 1 _ rfl).mpr (Or.inr (by decide +kernel)),
    (both.2 Terrace.Library.sample 1 _ rfl).mpr (Or.inr (by decide +kernel))⟩

/-- Of three queries in a stream of six updates the second comes after five of them
instead of four. -/
theorem queriesOnTime_late :
    (Aspen.continuousQueryTest .sample Aspen.insertReturns 1 3
        (List.replicate 6 (some ⟨1, 2, 0⟩))).map (fun run => run.1.polls) = some [2, 5] ∧
      (Terrace.continuousQueryTest Terrace.Library.sample 1 3
        (List.replicate 6 (some ⟨1, 2, 0⟩))).map (fun run => run.1.polls) = some [2, 5] ∧
      ¬QueriesOnTime 6 3 [2, 5] := by
  refine ⟨by decide +kernel, by decide +kernel, fun onTime => ?_⟩
  exact absurd (onTime 1) (by decide)

end Schedule

section Pending

/-- Everything read so far has been handed to the graph. -/
def Aspen.SeesAll (stream : List Edge) (s : State) : Prop :=
  (insertedArcs s.calls).Perm (inserts stream) ∧ (deletedArcs s.calls).Perm (deletes stream)

def Terrace.Call.removed? : Call → Option PairUint
  | addEdgeBatch _ => none
  | removeEdge u v => some (u, v)

/-- The delete updates of a stream. -/
def Terrace.deletes (stream : List Edge) : List PairUint :=
  (stream.filter Edge.isDelete).map fun e => (e.src, e.dst)

def Terrace.SeesAll (stream : List Edge) (s : State) : Prop :=
  (handed s.calls).Perm (inserts stream) ∧ s.calls.filterMap Call.removed? = deletes stream

/-- Every query of the loop sees all updates read before it. -/
def Aspen.QueriesSeeAll (sortUpdates : SortUpdates) (updateBatchSize queries : Nat) (stream : List Edge) : Prop :=
  ∀ interval, queryInterval stream.length queries = some interval →
    Run.EachStep (Polling.step interval (State.step sortUpdates updateBatchSize))
      (fun p _ => interval ≤ p.count → SeesAll (stream.take p.consumed) p.inner)
      (Polling.start (init updateBatchSize)) (stream.map some)

def Terrace.QueriesSeeAll (library : Library) (updateBatchSize queries : Nat) (stream : List Edge) : Prop :=
  ∀ interval, queryInterval stream.length queries = some interval →
    Run.EachStep (Polling.step interval (State.step library updateBatchSize))
      (fun p _ => interval ≤ p.count → SeesAll (stream.take p.consumed) p.inner)
      (Polling.start (init updateBatchSize)) (stream.map some)

theorem nil_perm_leftover {α : Type} (capacity : Nat) (items : List α) :
    [].Perm (leftover capacity items) ↔ capacity ∣ items.length := by
  rw [List.nil_perm, ← List.length_eq_zero_iff, leftover_length, Nat.dvd_iff_mod_eq_zero]

/-- Nothing is pending exactly at the end of a batch of either kind. -/
theorem Aspen.Tracks.seesAll_iff {sortUpdates : SortUpdates} {updateBatchSize : Nat}
    {stream : List Edge} {s : State} (tracks : Tracks sortUpdates updateBatchSize stream s) :
    SeesAll stream s ↔
      capacity updateBatchSize ∣ (inserts stream).length ∧
        capacity updateBatchSize ∣ (deletes stream).length := by
  have inserted := tracks.inserted.handed_iff []
  have deleted := tracks.deleted.handed_iff []
  rw [List.append_nil, nil_perm_leftover] at inserted deleted
  exact and_congr inserted deleted

theorem Terrace.removed_batches (batches : List (List PairUint)) :
    (batches.map Call.addEdgeBatch).filterMap Call.removed? = [] := by
  induction batches with
  | nil => rfl
  | cons batch rest ih => exact ih

/-- Deletions are handed over at once. -/
theorem Terrace.run_removed {library : Library} {updateBatchSize : Nat} {stream : List Edge} {s t : State}
    (done : Run.run (State.step library updateBatchSize) s (stream.map some) = some t) :
    t.calls.filterMap Call.removed? = s.calls.filterMap Call.removed? ++ deletes stream := by
  induction stream generalizing s with
  | nil =>
    cases done
    exact (List.append_nil _).symm
  | cons e rest ih =>
    obtain ⟨u, first, others⟩ := (Run.run_cons_some _).mp done
    rw [ih others]
    simp only [State.step, Option.getD_some] at first
    split at first
    next deleted =>
      cases first
      simp only [deletes, List.filter_cons_of_pos deleted, List.map_cons, List.filterMap_append,
        List.append_assoc]
      rfl
    next inserted =>
      obtain ⟨new, calls⟩ := insert_calls first
      rw [calls, List.filterMap_append, removed_batches, List.append_nil, deletes, deletes,
        List.filter_cons_of_neg inserted]

/-- Nothing is pending exactly at the end of a batch of insertions. -/
theorem Terrace.seesAll_iff {library : Library} {updateBatchSize : Nat} (positive : 1 ≤ updateBatchSize)
    (bound : updateBatchSize < 2 ^ 64) {stream : List Edge} {t : State}
    (done : Run.run (State.step library updateBatchSize) (init updateBatchSize) (stream.map some) = some t) :
    SeesAll stream t ↔ updateBatchSize ∣ (inserts stream).length := by
  have tracks := run_tracks positive bound (init_tracks positive) done
  rw [List.nil_append] at tracks
  have handed := tracks.filled.handed_iff []
  rw [List.append_nil, nil_perm_leftover] at handed
  exact (and_iff_left (run_removed done)).trans handed

/-- The positions of the queries in the loop. -/
def QueryAt (numUpdates queries i : Nat) : Prop :=
  ∃ interval, queryInterval numUpdates queries = some interval ∧ i < numUpdates ∧
    (i + 1) % (interval + 1) = 0

/-- At every query that is reached, the insertions and the deletions read so far fill
their batches. -/
def Aspen.QueriesAtBatchEnds (updateBatchSize queries : Nat) (stream : List Edge) : Prop :=
  ∀ i, QueryAt stream.length queries i → updateBatchSize ≠ 2 ^ 63 →
    capacity updateBatchSize ∣ (inserts (stream.take i)).length ∧
      capacity updateBatchSize ∣ (deletes (stream.take i)).length

def Terrace.QueriesAtBatchEnds (updateBatchSize queries : Nat) (stream : List Edge) : Prop :=
  ∀ i, QueryAt stream.length queries i →
    updateBatchSize < 2 ^ 31 ∨ (inserts (stream.take i)).length < updateBatchSize →
    updateBatchSize ∣ (inserts (stream.take i)).length

/-- What every query sees, in terms of the runs that end before one. -/
theorem queriesSee_iff {S : Type} {advance : S → Option Edge → Option S} {s : S} {queries : Nat}
    {stream : List Edge} {Q : Nat → S → Prop} :
    (∀ interval, queryInterval stream.length queries = some interval →
        Run.EachStep (Polling.step interval advance)
          (fun p _ => interval ≤ p.count → Q p.consumed p.inner) (Polling.start s) (stream.map some)) ↔
      ∀ i t, QueryAt stream.length queries i →
        Run.run advance s ((stream.take i).map some) = some t → Q i t := by
  simp only [Polling.eachStep_iff, List.length_map, ← List.map_take]
  constructor
  · rintro sees i t ⟨interval, rounded, below, period⟩ reached
    exact sees interval rounded i t below period reached
  · intro sees interval rounded i t below period reached
    exact sees i t ⟨interval, rounded, below, period⟩ reached

theorem Aspen.queriesSeeAll_iff_ends (sortUpdates : SortUpdates) {updateBatchSize : Nat}
    (positive : 1 ≤ updateBatchSize) (bound : updateBatchSize < 2 ^ 64) (queries : Nat)
    (stream : List Edge) :
    QueriesSeeAll sortUpdates updateBatchSize queries stream ↔
      QueriesAtBatchEnds updateBatchSize queries stream := by
  rw [QueriesSeeAll, queriesSee_iff (Q := fun i s => SeesAll (stream.take i) s)]
  have start : 0 < capacity updateBatchSize →
      Tracks sortUpdates updateBatchSize [] (init updateBatchSize) := init_tracks
  constructor
  · intro sees i query regular
    have size := capacity_pos positive bound regular
    obtain ⟨t, reached, tracks⟩ := run_tracks size (start size) (stream.take i)
    exact tracks.seesAll_iff.mp (sees i t query reached)
  · intro ends i t query reached
    by_cases wraps : updateBatchSize = 2 ^ 63
    · subst wraps
      cases read : stream.take i with
      | nil =>
        rw [read] at reached
        cases reached
        exact ⟨List.Perm.refl _, List.Perm.refl _⟩
      | cons e rest =>
        rw [read, run_wrapped] at reached
        cases reached
    · have size := capacity_pos positive bound wraps
      obtain ⟨u, reached', tracks⟩ := run_tracks size (start size) (stream.take i)
      cases Option.some.inj (reached.symm.trans reached')
      exact tracks.seesAll_iff.mpr (ends i query wraps)

theorem Terrace.queriesSeeAll_iff_ends (library : Library) {updateBatchSize : Nat}
    (positive : 1 ≤ updateBatchSize) (bound : updateBatchSize < 2 ^ 64) (queries : Nat)
    (stream : List Edge) :
    QueriesSeeAll library updateBatchSize queries stream ↔
      QueriesAtBatchEnds updateBatchSize queries stream := by
  rw [QueriesSeeAll, queriesSee_iff (Q := fun i s => SeesAll (stream.take i) s)]
  have start : Tracks library updateBatchSize [] (init updateBatchSize) := init_tracks positive
  constructor
  · intro sees i query small
    have few : 2 ^ 31 ≤ updateBatchSize →
        ([] ++ inserts (stream.take i)).length < updateBatchSize := by
      rw [List.nil_append]
      omega
    obtain ⟨t, reached⟩ := run_defined positive bound start few
    exact (seesAll_iff positive bound reached).mp (sees i t query reached)
  · intro ends i t query reached
    have few := (run_tracks positive bound start reached).defined
    rw [List.nil_append] at few
    exact (seesAll_iff positive bound reached).mpr (ends i query (by omega))

/-- Nothing is flushed before a query, so it sees all updates only where the batches
happen to end. -/
theorem queriesSeeAll_iff {updateBatchSize : Nat} (positive : 1 ≤ updateBatchSize)
    (bound : updateBatchSize < 2 ^ 64) (queries : Nat) (stream : List Edge) :
    (∀ sortUpdates, Aspen.QueriesSeeAll sortUpdates updateBatchSize queries stream ↔
        Aspen.QueriesAtBatchEnds updateBatchSize queries stream) ∧
      ∀ library, Terrace.QueriesSeeAll library updateBatchSize queries stream ↔
        Terrace.QueriesAtBatchEnds updateBatchSize queries stream :=
  ⟨fun sortUpdates => Aspen.queriesSeeAll_iff_ends sortUpdates positive bound queries stream,
    fun library => Terrace.queriesSeeAll_iff_ends library positive bound queries stream⟩

/-- The query after four of eight updates sees a batch of two insertions and one of
two deletions. -/
theorem queriesSeeAll_batches :
    let stream := [⟨1, 2, 0⟩, ⟨3, 4, 0⟩, ⟨1, 2, 1⟩, ⟨3, 4, 1⟩, ⟨5, 6, 0⟩, ⟨7, 8, 0⟩, ⟨5, 6, 1⟩,
      ⟨1, 2, 0⟩]
    Aspen.QueriesSeeAll .sample 2 2 stream ∧ Terrace.QueriesSeeAll .sample 2 2 stream := by
  intro stream
  have both := queriesSeeAll_iff (show 1 ≤ 2 by decide) (by decide) 2 stream
  have middle : ∀ i, QueryAt stream.length 2 i → i = 4 := by
    rintro i ⟨interval, rounded, below, period⟩
    have four : queryInterval stream.length 2 = some 4 := by decide +kernel
    cases Option.some.inj (four.symm.trans rounded)
    change i < 8 at below
    omega
  refine ⟨(both.1 _).mpr fun i query _ => ?_, (both.2 _).mpr fun i query _ => ?_⟩
  · obtain rfl := middle i query
    decide +kernel
  · obtain rfl := middle i query
    decide +kernel

/-- With batches of two updates the query after the first insertion misses it. -/
theorem queriesSeeAll_missing :
    ¬Aspen.QueriesSeeAll .sample 2 2 [⟨1, 2, 0⟩, ⟨3, 4, 0⟩] ∧
      ¬Terrace.QueriesSeeAll .sample 2 2 [⟨1, 2, 0⟩, ⟨3, 4, 0⟩] := by
  have query : QueryAt 2 2 1 := ⟨1, by decide +kernel, by decide, by decide⟩
  rw [Aspen.queriesSeeAll_iff_ends _ (by decide) (by decide),
    Terrace.queriesSeeAll_iff_ends _ (by decide) (by decide)]
  constructor
  · intro ends
    exact absurd (ends 1 query (by decide)).1 (by decide +kernel)
  · intro ends
    exact absurd (ends 1 query (Or.inl (by decide))) (by decide +kernel)

end Pending

end Zeppelin.Driver
