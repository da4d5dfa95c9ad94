import Mathlib.Data.Rat.Defs
import Zeppelin.Machine.Loop
import Zeppelin.Machine.Word

/-! `perform_insertions` of `insertion_mgr.cpp`: the loops that ingest a stream and
the counters behind the rate it reports. With a timeout the stream is ingested in
chunks, and the clock is read after each of them. The querier thread, which only
reads the graph, and the statistics of `connected_components` are left out. -/
namespace Zeppelin.Experiment

/-- What an experiment sees of a `BinaryGraphStream`: the number of updates in its
header, and what each call of `get_edge` returns. -/
structure BinaryGraphStream (Update : Type) where
  edges : UInt64
  getEdge : Nat → Update

namespace BinaryGraphStream

variable {Update : Type} (stream : BinaryGraphStream Update)

/-- `g.update(stream.get_edge())`, on the updates that `g` has received. -/
def ingest (received : List Update) : List Update := received ++ [stream.getEdge received.length]

def first (count : Nat) : List Update := (List.range count).map stream.getEdge

theorem length_first (count : Nat) : (stream.first count).length = count := by
  rw [first, List.length_map, List.length_range]

theorem iterate_ingest (count calls : Nat) :
    stream.ingest^[calls] (stream.first count) = stream.first (count + calls) := by
  induction calls with
  | zero => rfl
  | succ calls ih =>
    rw [Function.iterate_succ_apply', ih, ingest, length_first, first, first, ← Nat.add_assoc,
      List.range_succ, List.map_append, List.map_singleton]

theorem length_iterate_ingest (calls : Nat) (received : List Update) :
    (stream.ingest^[calls] received).length = received.length + calls := by
  induction calls with
  | zero => rfl
  | succ calls ih =>
    rw [Function.iterate_succ_apply', ingest, List.length_append, ih, List.length_singleton, Nat.add_assoc]

end BinaryGraphStream

/-- The variables of `perform_insertions`: `m` and `total` are `long`s, `readings`
counts the clock readings. -/
structure Insertions (Update : Type) where
  m : Int
  total : Int
  received : List Update
  readings : Nat
  stopped : Bool

section PerformInsertions

variable {Update : Type}

namespace Insertions

def start (stream : BinaryGraphStream Update) : Insertions Update where
  m := Word.signed 64 stream.edges.toNat
  total := Word.signed 64 stream.edges.toNat
  received := []
  readings := 0
  stopped := false

/-- One round of `while (m--)`. `none` is the overflow of `m`. -/
def next (stream : BinaryGraphStream Update) (s : Insertions Update) : Option (Insertions Update) :=
  if s.m = -2 ^ 63 then none
  else some { s with m := s.m - 1, received := stream.ingest s.received }

/-- One round of `while (m > 0)`: a chunk, a reading of the clock in minutes since
the start, and the `break` of a timeout. -/
def nextChunk (stream : BinaryGraphStream Update) (timeout : Int64) (minutes : Nat → ℚ) (fuel : Nat)
    (s : Insertions Update) : Option (Insertions Update) := do
  let (i, received) ← Loop.countLoop 63 (min s.m.toNat 10000000)
    (fun received => some (stream.ingest received)) fuel s.received
  if Word.toDouble timeout.toInt.toNat < minutes s.readings then
    -- reduce total by number of unprocessed edges
    some { s with total := s.total - s.m, received, readings := s.readings + 1, stopped := true }
  else some { s with m := s.m - i, received, readings := s.readings + 1 }

end Insertions

open Insertions

def wholeStream (stream : BinaryGraphStream Update) (fuel : Nat) : Option (Insertions Update) :=
  Loop.whileLoop (fun s => s.m ≠ 0) (next stream) fuel (start stream)

/-- The loop with a timeout, left by `break` when it has stopped. -/
def inChunks (stream : BinaryGraphStream Update) (timeout : Int64) (minutes : Nat → ℚ) (fuel : Nat) :
    Option (Insertions Update) :=
  Loop.whileLoop (fun s => 0 < s.m && !s.stopped) (nextChunk stream timeout minutes fuel) fuel
    (start stream)

def performInsertions (stream : BinaryGraphStream Update) (timeout : Int64) (minutes : Nat → ℚ)
    (fuel : Nat) : Option (Insertions Update) :=
  if timeout ≤ 0 then wholeStream stream fuel else inChunks stream timeout minutes fuel

/-- The reported number is that of the calls of `g.update`, which are as many as the
stream has updates unless the timeout stopped it. -/
def ReportsWork (stream : BinaryGraphStream Update) (timeout : Int64) (minutes : Nat → ℚ) : Prop :=
  ∃ fuel s, performInsertions stream timeout minutes fuel = some s ∧
    s.total = s.received.length ∧ (s.stopped = false → s.received.length = stream.edges.toNat)

section Whole

variable {stream : BinaryGraphStream Update}

theorem start_of_lt (small : stream.edges.toNat < 2 ^ 63) :
    (start stream).m = stream.edges.toNat ∧ (start stream).total = stream.edges.toNat := by
  have fits : Word.signed 64 stream.edges.toNat = stream.edges.toNat :=
    Word.signed_eq_self (by decide) ⟨by omega, by omega⟩
  simp only [start, fits, and_self]

theorem start_of_ge (large : 2 ^ 63 ≤ stream.edges.toNat) :
    (start stream).m < 0 ∧ (start stream).total < 0 := by
  have word := stream.edges.toNat_lt
  have negative : Word.signed 64 stream.edges.toNat < 0 := by
    rw [Word.signed, Int.bmod_def]
    omega
  simp only [start, negative, and_self]

/-- The loop without a timeout. -/
structure Counting (stream : BinaryGraphStream Update) (s : Insertions Update) : Prop where
  total : s.total = (start stream).total
  running : s.stopped = false
  left : s.received.length + s.m = (start stream).m

theorem next_counting {s t : Insertions Update} (counting : Counting stream s)
    (step : next stream s = some t) : Counting stream t := by
  have left := counting.left
  rw [next] at step
  split at step
  · cases step
  · cases step
    refine ⟨counting.total, counting.running, ?_⟩
    simp only [BinaryGraphStream.ingest, List.length_append, List.length_singleton]
    omega

theorem start_counting (stream : BinaryGraphStream Update) : Counting stream (start stream) :=
  ⟨rfl, rfl, by simp only [start, List.length_nil, Nat.cast_zero, zero_add]⟩

theorem whole_ends {fuel : Nat} {s : Insertions Update}
    (ended : wholeStream stream fuel = some s) :
    Counting stream s ∧ s.m = 0 := by
  obtain ⟨counting, stops⟩ := Loop.whileLoop_invariant
    (fun s t counting _ step => next_counting counting step) (start_counting stream) ended
  exact ⟨counting, not_not.mp (of_decide_eq_false stops)⟩

theorem whole_returns (small : stream.edges.toNat < 2 ^ 63) :
    ∃ s, wholeStream stream (stream.edges.toNat + 1) = some s := by
  have length := (start_of_lt small).1
  apply Loop.whileLoop_returns (P := fun s => 0 ≤ s.m) (fun s => s.m.toNat)
  · intro s nonneg continues
    have nonzero : s.m ≠ 0 := of_decide_eq_true continues
    refine ⟨_, if_neg (by omega), ?_, ?_⟩
    · change 0 ≤ s.m - 1
      omega
    · change (s.m - 1).toNat < s.m.toNat
      omega
  · rw [length]
    exact Int.natCast_nonneg _
  · rw [length]
    omega

end Whole

section Chunks

variable {stream : BinaryGraphStream Update} {timeout : Int64} {minutes : Nat → ℚ}

/-- The reading after chunk `k` is past the timeout. -/
def Trips (timeout : Int64) (minutes : Nat → ℚ) (k : Nat) : Prop :=
  Word.toDouble timeout.toInt.toNat < minutes k

instance (timeout : Int64) (minutes : Nat → ℚ) (k : Nat) : Decidable (Trips timeout minutes k) :=
  inferInstanceAs (Decidable (_ < _))

/-- The state after a chunk of `i` updates. -/
def afterChunk (stream : BinaryGraphStream Update) (timeout : Int64) (minutes : Nat → ℚ)
    (s : Insertions Update) (i : Nat) : Insertions Update :=
  if Trips timeout minutes s.readings then
    { s with
      total := s.total - s.m
      received := stream.ingest^[i] s.received
      readings := s.readings + 1
      stopped := true }
  else
    { s with m := s.m - i, received := stream.ingest^[i] s.received, readings := s.readings + 1 }

theorem nextChunk_eq (fuel : Nat) (s : Insertions Update) :
    nextChunk stream timeout minutes fuel s =
      if min s.m.toNat 10000000 < fuel then
        some (afterChunk stream timeout minutes s (min s.m.toNat 10000000))
      else none := by
  have small : min s.m.toNat 10000000 < 2 ^ 63 := by omega
  rw [nextChunk, Loop.countLoop_eq (fun _ => rfl) small]
  split
  · exact (apply_ite some _ _ _).symm
  · rfl

section States

variable (stream : BinaryGraphStream Update) (timeout : Int64) (minutes : Nat → ℚ)

/-- Before a timeout `m` counts what is left, and all chunks but the last are full. -/
structure Running (s : Insertions Update) : Prop where
  total : s.total = stream.edges.toNat
  nonneg : 0 ≤ s.m
  left : s.received.length + s.m = stream.edges.toNat
  full : 0 < s.m → s.received.length = s.readings * 10000000
  quiet : ∀ k, k * 10000000 < s.received.length → ¬Trips timeout minutes k

/-- A timeout leaves out the chunk that was just ingested. -/
structure Stopped (s : Insertions Update) : Prop where
  total : s.total < s.received.length
  tripped : ∃ k, k * 10000000 < stream.edges.toNat ∧ Trips timeout minutes k

structure Chunking (s : Insertions Update) : Prop where
  running : s.stopped = false → Running stream timeout minutes s
  stopped : s.stopped = true → Stopped stream timeout minutes s

end States

theorem start_chunking (small : stream.edges.toNat < 2 ^ 63) :
    Chunking stream timeout minutes (start stream) := by
  obtain ⟨m, total⟩ := start_of_lt small
  refine ⟨fun _ => ⟨total, by omega, ?_, fun _ => (Nat.zero_mul _).symm, fun k below => ?_⟩, nofun⟩
  · rw [m]
    exact zero_add _
  · exact absurd below (Nat.not_lt_zero _)

/-- What is left to do. -/
def remaining (s : Insertions Update) : Nat := if s.stopped then 0 else s.m.toNat

theorem stopped_afterChunk {s : Insertions Update} (running : Running stream timeout minutes s)
    (positive : 0 < s.m) (trips : Trips timeout minutes s.readings) :
    Stopped stream timeout minutes (afterChunk stream timeout minutes s (min s.m.toNat 10000000)) := by
  have total := running.total
  have left := running.left
  have chunks := running.full positive
  rw [afterChunk, if_pos trips]
  refine ⟨?_, s.readings, by omega, trips⟩
  simp only [stream.length_iterate_ingest]
  omega

theorem running_afterChunk {s : Insertions Update} (running : Running stream timeout minutes s)
    (positive : 0 < s.m) (stays : ¬Trips timeout minutes s.readings) :
    Running stream timeout minutes (afterChunk stream timeout minutes s (min s.m.toNat 10000000)) := by
  have left := running.left
  have chunks := running.full positive
  have length := stream.length_iterate_ingest (min s.m.toNat 10000000) s.received
  rw [afterChunk, if_neg stays]
  refine ⟨running.total, ?_, ?_, fun more => ?_, fun k below => ?_⟩
  · change 0 ≤ s.m - _
    omega
  · simp only [length]
    omega
  · simp only [length] at more ⊢
    omega
  · simp only [length] at below
    rcases Nat.lt_trichotomy k s.readings with earlier | rfl | later
    · exact running.quiet k (by omega)
    · exact stays
    · omega

theorem afterChunk_chunking {s : Insertions Update} (chunking : Chunking stream timeout minutes s)
    (positive : 0 < s.m) (unstopped : s.stopped = false) :
    Chunking stream timeout minutes (afterChunk stream timeout minutes s (min s.m.toNat 10000000)) ∧
      remaining (afterChunk stream timeout minutes s (min s.m.toNat 10000000)) < remaining s := by
  have running := chunking.running unstopped
  have rest : remaining s = s.m.toNat := if_neg (by rw [unstopped]; decide)
  rw [rest]
  by_cases trips : Trips timeout minutes s.readings
  · refine ⟨⟨fun contrary => ?_, fun _ => stopped_afterChunk running positive trips⟩, ?_⟩
    · simp [afterChunk, trips] at contrary
    · simp only [remaining, afterChunk, if_pos trips, if_true]
      omega
  · refine ⟨⟨fun _ => running_afterChunk running positive trips, fun contrary => ?_⟩, ?_⟩
    · simp [afterChunk, trips, unstopped] at contrary
    · simp only [remaining, afterChunk, if_neg trips, unstopped, Bool.false_eq_true, if_false]
      omega

theorem chunk_guard {s : Insertions Update} (continues : (decide (0 < s.m) && !s.stopped) = true) :
    0 < s.m ∧ s.stopped = false := by
  rw [Bool.and_eq_true, decide_eq_true_eq, Bool.not_eq_true'] at continues
  exact continues

theorem chunks_end (small : stream.edges.toNat < 2 ^ 63) {fuel : Nat} {s : Insertions Update}
    (ended : inChunks stream timeout minutes fuel = some s) :
    Chunking stream timeout minutes s ∧ (s.stopped = false → s.m ≤ 0) := by
  obtain ⟨chunking, stops⟩ := Loop.whileLoop_invariant (P := Chunking stream timeout minutes)
    (fun s t chunking continues step => by
      obtain ⟨positive, running⟩ := chunk_guard continues
      rw [nextChunk_eq] at step
      split at step
      · cases step
        exact (afterChunk_chunking chunking positive running).1
      · cases step)
    (start_chunking small) ended
  refine ⟨chunking, fun running => ?_⟩
  rw [Bool.and_eq_false_iff, decide_eq_false_iff_not, running] at stops
  exact Int.not_lt.mp (stops.resolve_right (by decide))

theorem chunks_return (timeout : Int64) (minutes : Nat → ℚ) (small : stream.edges.toNat < 2 ^ 63) :
    ∃ fuel s, inChunks stream timeout minutes fuel = some s := by
  refine ⟨stream.edges.toNat + 10000001, ?_⟩
  apply Loop.whileLoop_returns (P := Chunking stream timeout minutes) remaining
  · intro s chunking continues
    obtain ⟨positive, running⟩ := chunk_guard continues
    refine ⟨_, ?_, afterChunk_chunking chunking positive running⟩
    rw [nextChunk_eq, if_pos (by omega)]
  · exact start_chunking small
  · have m := (start_of_lt small).1
    simp only [remaining, m]
    split
    · omega
    · omega

/-- Negative from the start, `m` counts no chunk. -/
theorem chunks_of_ge (large : 2 ^ 63 ≤ stream.edges.toNat) {fuel : Nat} {s : Insertions Update}
    (ended : inChunks stream timeout minutes fuel = some s) : s = start stream := by
  have negative := (start_of_ge large).1
  cases fuel with
  | zero => cases ended
  | succ fuel =>
    rw [inChunks, Loop.whileLoop, if_neg] at ended
    · exact (Option.some.inj ended).symm
    · intro continues
      exact absurd (chunk_guard continues).1 (by omega)

/-- A report that is right was not stopped by any reading. -/
theorem within_of_reportsWork (reports : ReportsWork stream timeout minutes)
    (small : stream.edges.toNat < 2 ^ 63) (used : ¬timeout ≤ 0) :
    ∀ k, k * 10000000 < stream.edges.toNat → ¬Trips timeout minutes k := by
  obtain ⟨fuel, s, ended, total, whole⟩ := reports
  rw [performInsertions, if_neg used] at ended
  have chunking := (chunks_end small ended).1
  cases stop : s.stopped with
  | true =>
    have less := (chunking.stopped stop).total
    omega
  | false =>
    intro k below
    exact (chunking.running stop).quiet k (by rw [whole stop]; exact below)

end Chunks

/-- A length that `m` cannot hold is reported as a negative number. -/
theorem small_of_reportsWork {stream : BinaryGraphStream Update} {timeout : Int64} {minutes : Nat → ℚ}
    (reports : ReportsWork stream timeout minutes) : stream.edges.toNat < 2 ^ 63 := by
  obtain ⟨fuel, s, ended, total, -⟩ := reports
  by_contra large
  have negative := (start_of_ge (Nat.le_of_not_lt large)).2
  rw [performInsertions] at ended
  split at ended
  next =>
    rw [(whole_ends ended).1.total] at total
    omega
  next =>
    rw [chunks_of_ge (Nat.le_of_not_lt large) ended] at total
    omega

/-- The count is right when `m` holds the length and no reading stops the stream. -/
theorem reportsWork_iff (stream : BinaryGraphStream Update) (timeout : Int64) (minutes : Nat → ℚ) :
    ReportsWork stream timeout minutes ↔
      stream.edges.toNat < 2 ^ 63 ∧
        (timeout ≤ 0 ∨ ∀ k, k * 10000000 < stream.edges.toNat →
          minutes k ≤ Word.toDouble timeout.toInt.toNat) := by
  constructor
  · intro reports
    have small := small_of_reportsWork reports
    refine ⟨small, or_iff_not_imp_left.mpr fun used k below => ?_⟩
    exact not_lt.mp (within_of_reportsWork reports small used k below)
  · rintro ⟨small, within⟩
    by_cases none : timeout ≤ 0
    · obtain ⟨s, ended⟩ := whole_returns small
      obtain ⟨counting, done⟩ := whole_ends ended
      have m := (start_of_lt small).1
      have left := counting.left
      refine ⟨_, s, by rw [performInsertions, if_pos none, ended], ?_, fun _ => by omega⟩
      rw [counting.total, (start_of_lt small).2]
      omega
    · obtain ⟨fuel, s, ended⟩ := chunks_return timeout minutes small
      obtain ⟨chunking, finished⟩ := chunks_end small ended
      refine ⟨fuel, s, by rw [performInsertions, if_neg none, ended], ?_⟩
      cases stop : s.stopped with
      | true =>
        obtain ⟨k, below, trips⟩ := (chunking.stopped stop).tripped
        exact absurd trips (not_lt.mpr (within.resolve_left none k below))
      | false =>
        obtain ⟨total, nonneg, left⟩ := chunking.running stop
        have done := finished stop
        exact ⟨by omega, fun _ => by omega⟩

/-- One update, a timeout of one minute and a reading of two: the update is made and
none is reported. -/
theorem reportsWork_short :
    ¬ReportsWork (⟨1, fun _ => ()⟩ : BinaryGraphStream Unit) 1 (fun _ => 2) ∧
      (performInsertions (⟨1, fun _ => ()⟩ : BinaryGraphStream Unit) 1 (fun _ => 2) 3).map
        (fun s => (s.total, s.received.length)) = some (0, 1) := by
  refine ⟨fun reports => ?_, by decide +kernel⟩
  exact within_of_reportsWork reports (by decide) (by decide) 0 (by decide) (by decide +kernel)

end PerformInsertions

end Zeppelin.Experiment
