import Zeppelin.Experiment.InsertionMgr

/-! The experiments that query the graph while it ingests a stream:
`perform_continuous_insertions` of `query_expr.cpp` and `test_continuous` of
`cont_expr.cpp`. Both cut the stream into samples of equal length and check the
connected components after each. The counters have the widths of the source, so
that a loop may not end. Timings and output are left out. -/
namespace Zeppelin.Experiment

/-- The loop over the samples: what has been fed, what had been fed at each check,
and the number of checks that threw. -/
structure Sampled (R : Type) where
  fed : R
  checks : List R
  failures : Nat

namespace Sampled

variable {R : Type} (throws : Nat → Bool)

/-- A call of `connected_components` inside its `try` block. -/
def check (s : Sampled R) : Sampled R where
  fed := s.fed
  checks := s.checks ++ [s.fed]
  failures := if throws s.checks.length then s.failures + 1 else s.failures

def loop (width samples : Nat) (feed : R → Option R) (fuel : Nat) (start : R) : Option (Sampled R) :=
  Loop.forLoop width samples (fun s => (feed s.fed).map fun fed => check throws { s with fed }) fuel
    ⟨start, [], 0⟩

/-- Samples that always end: each check comes after one sample more. -/
def afterSamples (f : R → R) (start : R) (count : Nat) : Sampled R :=
  (fun s : Sampled R => check throws { s with fed := f s.fed })^[count] ⟨start, [], 0⟩

theorem afterSamples_fed (f : R → R) (start : R) (count : Nat) :
    (afterSamples throws f start count).fed = f^[count] start := by
  induction count with
  | zero => rfl
  | succ count ih =>
    rw [afterSamples, Function.iterate_succ_apply', Function.iterate_succ_apply', ← ih]
    rfl

theorem afterSamples_checks (f : R → R) (start : R) (count : Nat) :
    (afterSamples throws f start count).checks = (List.range count).map fun i => f^[i + 1] start := by
  induction count with
  | zero => rfl
  | succ count ih =>
    have last := afterSamples_fed throws f start count
    rw [List.range_succ, List.map_append, List.map_singleton, Function.iterate_succ_apply', ← last,
      ← ih, afterSamples, Function.iterate_succ_apply']
    rfl

theorem loop_eq {width samples : Nat} {feed : R → Option R} {f : R → R}
    (feeds : ∀ fed, feed fed = some (f fed)) (small : samples < 2 ^ width) (fuel : Nat) (start : R) :
    loop throws width samples feed fuel start =
      if samples < fuel then some (afterSamples throws f start samples) else none := by
  rw [loop, Loop.forLoop_eq (fun s => by rw [feeds, Option.map_some]) small]
  rfl

theorem loop_stuck {width samples : Nat} {feed : R → Option R} (stuck : ∀ fed, feed fed = none)
    (positive : 0 < samples) (fuel : Nat) (start : R) :
    loop throws width samples feed fuel start = none :=
  Loop.forLoop_stuck (fun s => by rw [stuck, Option.map_none]) positive fuel _

end Sampled

section QueryExpr

variable {Update : Type}

/-- `for (unsigned j = 0; j < upds_per_sample; ++j)`, where the bound is a `uint64_t`. -/
def ingestSample (stream : BinaryGraphStream Update) (fuel : Nat) (received : List Update) :
    Option (List Update) :=
  let updsPerSample := stream.edges.toNat / 10
  Loop.forLoop 32 updsPerSample (fun received => some (stream.ingest received)) fuel received

def performContinuousInsertions (stream : BinaryGraphStream Update) (outOfQueries : Nat → Bool)
    (fuel : Nat) : Option (Sampled (List Update)) :=
  Sampled.loop outOfQueries 31 10 (ingestSample stream fuel) fuel []

/-- Every ingestion loop ends after a tenth of the stream, and so the queries come
after one tenth more each. -/
def QueriesEachTenth (stream : BinaryGraphStream Update) (outOfQueries : Nat → Bool) : Prop :=
  (∀ received, ∃ fuel after, ingestSample stream fuel received = some after ∧
      after.length = received.length + stream.edges.toNat / 10) ∧
    ∃ fuel s, performContinuousInsertions stream outOfQueries fuel = some s ∧
      s.checks = (List.range 10).map fun i => stream.first ((i + 1) * (stream.edges.toNat / 10))

theorem iterate_sample (stream : BinaryGraphStream Update) (length count : Nat) :
    (stream.ingest^[length])^[count] [] = stream.first (count * length) := by
  rw [← Function.iterate_mul, Nat.mul_comm]
  have start := stream.iterate_ingest 0 (count * length)
  rwa [Nat.zero_add] at start

theorem ingestSample_eq {stream : BinaryGraphStream Update} (small : stream.edges.toNat / 10 < 2 ^ 32)
    {fuel : Nat} (enough : stream.edges.toNat / 10 < fuel) (received : List Update) :
    ingestSample stream fuel received = some (stream.ingest^[stream.edges.toNat / 10] received) := by
  rw [ingestSample, Loop.forLoop_eq (fun _ => rfl) small, if_pos enough]

theorem ingestSample_diverges (stream : BinaryGraphStream Update)
    (large : 2 ^ 32 ≤ stream.edges.toNat / 10) (fuel : Nat) (received : List Update) :
    ingestSample stream fuel received = none :=
  Loop.forLoop_diverges large fuel received

theorem performContinuousInsertions_eq {stream : BinaryGraphStream Update}
    (small : stream.edges.toNat / 10 < 2 ^ 32) (outOfQueries : Nat → Bool) :
    performContinuousInsertions stream outOfQueries (stream.edges.toNat / 10 + 11) =
      some (Sampled.afterSamples outOfQueries (stream.ingest^[stream.edges.toNat / 10]) [] 10) := by
  rw [performContinuousInsertions,
    Sampled.loop_eq outOfQueries (ingestSample_eq small (by omega)) (by decide), if_pos (by omega)]

/-- The counter has 32 bits, so a tenth of the stream must have fewer. -/
theorem queriesEachTenth_iff (stream : BinaryGraphStream Update) (outOfQueries : Nat → Bool) :
    QueriesEachTenth stream outOfQueries ↔ stream.edges.toNat < 10 * 2 ^ 32 := by
  rw [Nat.mul_comm, ← Nat.div_lt_iff_lt_mul (by decide)]
  constructor
  · rintro ⟨ends, -⟩
    by_contra large
    obtain ⟨fuel, after, ended, -⟩ := ends []
    rw [ingestSample_diverges stream (Nat.le_of_not_lt large)] at ended
    cases ended
  · intro small
    constructor
    · intro received
      refine ⟨_, _, ingestSample_eq small (Nat.lt_succ_self _) received, ?_⟩
      exact stream.length_iterate_ingest _ received
    · refine ⟨_, _, performContinuousInsertions_eq small outOfQueries, ?_⟩
      simp only [Sampled.afterSamples_checks, iterate_sample]

/-- No fuel is enough for a stream of `10 * 2 ^ 32` updates. -/
theorem queriesEachTenth_endless :
    ¬QueriesEachTenth (⟨42949672960, fun _ => ()⟩ : BinaryGraphStream Unit) (fun _ => false) ∧
      ∀ fuel, performContinuousInsertions (⟨42949672960, fun _ => ()⟩ : BinaryGraphStream Unit)
        (fun _ => false) fuel = none := by
  have endless := ingestSample_diverges (⟨42949672960, fun _ => ()⟩ : BinaryGraphStream Unit) (by decide)
  constructor
  · rintro ⟨ends, -⟩
    obtain ⟨fuel, after, ended, -⟩ := ends []
    rw [endless] at ended
    cases ended
  · intro fuel
    exact Sampled.loop_stuck _ (endless fuel) (by decide) fuel _

end QueryExpr

section ContExpr

variable {Edge Kind : Type}

/-- What the graph and the verifier have received. -/
structure Checked (Edge Kind : Type) where
  graph : List (Edge × Kind)
  verifier : List Edge

/-- One update goes to both; the verifier is not told its kind. -/
def Checked.update (stream : BinaryGraphStream (Edge × Kind)) (c : Checked Edge Kind) :
    Checked Edge Kind :=
  let upd := stream.getEdge c.graph.length
  ⟨c.graph ++ [upd], c.verifier ++ [upd.1]⟩

/-- `m / samples` in a `node_id_t`. -/
def updatesPerSample (stream : BinaryGraphStream (Edge × Kind)) (samples : UInt32) : Nat :=
  Word.unsigned 32 ((stream.edges.toNat / samples.toNat : Nat) : Int)

/-- `none` is also the division by zero. -/
def testContinuous (stream : BinaryGraphStream (Edge × Kind)) (samples : UInt32)
    (throws : Nat → Bool) (fuel : Nat) : Option (Sampled (Checked Edge Kind)) :=
  if samples = 0 then none
  else
    Sampled.loop throws 64 samples.toNat
      (Loop.forLoop 64 (updatesPerSample stream samples) (fun c => some (c.update stream)) fuel) fuel
      ⟨[], []⟩

/-- The first updates of the stream, as both have received them. -/
def checkedFirst (stream : BinaryGraphStream (Edge × Kind)) (count : Nat) : Checked Edge Kind :=
  ⟨stream.first count, (stream.first count).map Prod.fst⟩

/-- Every check comes after one more sample of the exact length, and the last one
leaves fewer updates than there are samples. -/
def ChecksSamples (stream : BinaryGraphStream (Edge × Kind)) (samples : UInt32)
    (throws : Nat → Bool) : Prop :=
  ∃ fuel s, testContinuous stream samples throws fuel = some s ∧
    s.checks = (List.range samples.toNat).map
      (fun i => checkedFirst stream ((i + 1) * (stream.edges.toNat / samples.toNat))) ∧
    ∃ last, s.checks.getLast? = some last ∧
      stream.edges.toNat + 1 ≤ last.graph.length + samples.toNat

theorem iterate_update (stream : BinaryGraphStream (Edge × Kind)) (calls : Nat) :
    (Checked.update stream)^[calls] ⟨[], []⟩ = checkedFirst stream calls := by
  induction calls with
  | zero => rfl
  | succ calls ih =>
    have next := stream.iterate_ingest calls 1
    rw [Function.iterate_one, BinaryGraphStream.ingest] at next
    rw [Function.iterate_succ_apply', ih, checkedFirst, checkedFirst, Checked.update, ← next,
      List.map_append, List.map_singleton]

theorem samples_pos {samples : UInt32} (nonzero : samples ≠ 0) : 0 < samples.toNat :=
  Nat.pos_of_ne_zero fun zero => nonzero (UInt32.toNat_inj.mp zero)

/-- What the checks are, whatever the length of a sample. -/
theorem testContinuous_eq (stream : BinaryGraphStream (Edge × Kind)) {samples : UInt32}
    (nonzero : samples ≠ 0) (throws : Nat → Bool) (fuel : Nat) :
    testContinuous stream samples throws fuel =
      if updatesPerSample stream samples < fuel ∧ samples.toNat < fuel then
        some (Sampled.afterSamples throws ((Checked.update stream)^[updatesPerSample stream samples])
          ⟨[], []⟩ samples.toNat)
      else none := by
  have small : updatesPerSample stream samples < 2 ^ 64 :=
    (Word.unsigned_lt 32 _).trans (by decide)
  have feed : ∀ c, Loop.forLoop 64 (updatesPerSample stream samples)
      (fun c => some (Checked.update stream c)) fuel c = _ :=
    Loop.forLoop_eq (fun _ => rfl) small fuel
  rw [testContinuous, if_neg nonzero]
  by_cases enough : updatesPerSample stream samples < fuel
  · simp only [enough, if_true, true_and] at feed ⊢
    exact Sampled.loop_eq throws feed (samples.toNat_lt.trans (by decide)) fuel _
  · simp only [enough, if_false, false_and] at feed ⊢
    exact Sampled.loop_stuck throws feed (samples_pos nonzero) fuel _

theorem afterSamples_update (stream : BinaryGraphStream (Edge × Kind)) (throws : Nat → Bool)
    (length count : Nat) :
    (Sampled.afterSamples throws ((Checked.update stream)^[length]) ⟨[], []⟩ count).checks =
      (List.range count).map fun i => checkedFirst stream ((i + 1) * length) := by
  rw [Sampled.afterSamples_checks]
  apply List.map_congr_left
  intro i _
  rw [← Function.iterate_mul, Nat.mul_comm, iterate_update]

/-- The first check tells the length of a sample. -/
theorem updatesPerSample_of_checksSamples {stream : BinaryGraphStream (Edge × Kind)} {samples : UInt32}
    {throws : Nat → Bool} (nonzero : samples ≠ 0) (checks : ChecksSamples stream samples throws) :
    updatesPerSample stream samples = stream.edges.toNat / samples.toNat := by
  obtain ⟨fuel, s, ended, same, -⟩ := checks
  have positive := samples_pos nonzero
  rw [testContinuous_eq stream nonzero] at ended
  split at ended
  · cases ended
    rw [afterSamples_update] at same
    have first := congrArg (fun checks => checks[0]?.map fun c => c.graph.length) same
    simpa [positive, checkedFirst, BinaryGraphStream.length_first] using first
  · cases ended

/-- The length of a sample is kept in 32 bits, so it must fit. -/
theorem checksSamples_iff (stream : BinaryGraphStream (Edge × Kind)) (samples : UInt32)
    (throws : Nat → Bool) (nonzero : samples ≠ 0) :
    ChecksSamples stream samples throws ↔ stream.edges.toNat / samples.toNat < 2 ^ 32 := by
  constructor
  · intro checks
    rw [← updatesPerSample_of_checksSamples nonzero checks]
    exact Word.unsigned_lt 32 _
  · intro small
    have length : updatesPerSample stream samples = stream.edges.toNat / samples.toNat :=
      Word.unsigned_natCast small
    have positive := samples_pos nonzero
    have ended := testContinuous_eq stream nonzero throws
      (stream.edges.toNat / samples.toNat + samples.toNat + 1)
    rw [length, if_pos ⟨by omega, by omega⟩] at ended
    refine ⟨_, _, ended, afterSamples_update _ _ _ _, ?_⟩
    rw [afterSamples_update]
    obtain ⟨n, count⟩ : ∃ n, samples.toNat = n + 1 := ⟨samples.toNat - 1, by omega⟩
    refine ⟨_, by rw [count, List.range_succ, List.map_append, List.map_singleton,
      List.getLast?_append_of_ne_nil _ (by simp), List.getLast?_singleton], ?_⟩
    rw [checkedFirst, BinaryGraphStream.length_first, ← count]
    have remainder := Nat.mod_lt stream.edges.toNat positive
    have whole := Nat.div_add_mod stream.edges.toNat samples.toNat
    omega

theorem checksSamples_two :
    ChecksSamples (⟨5, fun k => (k, ())⟩ : BinaryGraphStream (Nat × Unit)) 2 (fun _ => false) :=
  (checksSamples_iff _ 2 _ (by decide)).mpr (by decide)

/-- A stream of `2 ^ 32` updates is checked in one sample before any of them. -/
theorem checksSamples_truncated :
    ¬ChecksSamples (⟨4294967296, fun k => (k, ())⟩ : BinaryGraphStream (Nat × Unit)) 1
        (fun _ => false) ∧
      (testContinuous (⟨4294967296, fun k => (k, ())⟩ : BinaryGraphStream (Nat × Unit)) 1
        (fun _ => false) 2).map (fun s => s.checks.map fun c => c.graph.length) = some [0] := by
  refine ⟨fun checks => ?_, by decide +kernel⟩
  have length := updatesPerSample_of_checksSamples (by decide) checks
  exact absurd length (by decide +kernel)

end ContExpr

end Zeppelin.Experiment
