import Zeppelin.Machine.Batching
import Zeppelin.Machine.Run
import Zeppelin.Machine.Word
import Zeppelin.Stream.EdgeFile
import Mathlib.Data.List.Sort

/-! Terrace's `ingestion_test.cc`, whose loop and flush `continuous_query_test.cc`
repeats. Insertions are collected in `edges`; a full batch is sorted, copied to
`ins_srcs` and `ins_dests` and handed to the graph from there, which writes
merged neighbours back into `ins_dests`. The flush after the loop hands over the
first entries of `ins_srcs` and `ins_dests` without copying the pending ones.
Clock readings, progress output and the timeout are left out. -/
namespace Zeppelin.Driver

open Zeppelin.Stream Batching

namespace Terrace

/-- `pair_uint`, with `x` and `y`. -/
abbrev PairUint := UInt32 × UInt32

/-- What the driver meets of its libraries: two radix sorts that permute, and what
`add_edge_batch` leaves in its argument `dests` when it is called with some edges
after a number of batches. -/
structure Library where
  integerSortY : List PairUint → List PairUint
  integerSortX : List PairUint → List PairUint
  permY : ∀ edges, (integerSortY edges).Perm edges
  permX : ∀ edges, (integerSortX edges).Perm edges
  leavesDests : Nat → List PairUint → List UInt32

/-- The two sorts, in the order of the driver. -/
def Library.sort (library : Library) (edges : List PairUint) : List PairUint :=
  library.integerSortX (library.integerSortY edges)

theorem Library.sort_perm (library : Library) (edges : List PairUint) :
    (library.sort edges).Perm edges :=
  (library.permX _).trans (library.permY _)

/-- The calls made on the graph; a batch is the pairs of `srcs` and `dests` up to
its count. -/
inductive Call where
  | addEdgeBatch (edges : List PairUint)
  | removeEdge (u v : UInt32)
  deriving DecidableEq

def Call.batch? : Call → Option (List PairUint)
  | addEdgeBatch edges => some edges
  | removeEdge _ _ => none

def batches (calls : List Call) : List (List PairUint) := calls.filterMap Call.batch?

/-- All edges handed to `add_edge_batch`. -/
def handed (calls : List Call) : List PairUint := (batches calls).flatten

structure State where
  update : Edge
  edges : List PairUint
  insSrcs : List UInt32
  insDests : List UInt32
  insertBufferCount : Nat
  calls : List Call

def init (updateBatchSize : Nat) : State where
  update := ⟨0, 0, 0⟩
  edges := List.replicate updateBatchSize (0, 0)
  insSrcs := List.replicate updateBatchSize 0
  insDests := List.replicate updateBatchSize 0
  insertBufferCount := 0
  calls := []

namespace State

/-- The first pairs of the two arrays. -/
def handover (s : State) (count : Nat) : List PairUint :=
  (s.insSrcs.take count).zip (s.insDests.take count)

/-- An insertion. `none` is undefined behaviour: a write past the array, or the
overflow of `int j` in the copy loop of a batch of `2 ^ 31` edges or more. -/
def insert (library : Library) (updateBatchSize : Nat) (s : State) (u v : UInt32) : Option State :=
  if s.insertBufferCount < s.edges.length then
    let edges := s.edges.set s.insertBufferCount (u, v)
    if s.insertBufferCount = Word.unsigned 64 ((updateBatchSize : Int) - 1) then
      if updateBatchSize < 2 ^ 31 then
        let edges := library.sort edges
        let full : State := { s with
          edges := edges
          insSrcs := edges.map Prod.fst
          insDests := edges.map Prod.snd
          insertBufferCount := 0 }
        let batch := full.handover updateBatchSize
        some { full with
          insDests := library.leavesDests (batches s.calls).length batch
          calls := s.calls ++ [.addEdgeBatch batch] }
      else none
    else some { s with edges := edges, insertBufferCount := s.insertBufferCount + 1 }
  else none

/-- One iteration. A `get_edge` that returns false leaves `update` as it was. -/
def step (library : Library) (updateBatchSize : Nat) (s : State) (result : Option Edge) :
    Option State :=
  let update := result.getD s.update
  let s := { s with update := update }
  if update.isDelete then
    some { s with calls := s.calls ++ [.removeEdge update.src update.dst] }
  else s.insert library updateBatchSize update.src update.dst

/-- Flush remainder of buffer contents. `edge_count` of `add_edge_batch` is a
`uint32_t`. -/
def flush (s : State) : State :=
  if 0 < s.insertBufferCount then
    { s with
      calls := s.calls ++ [.addEdgeBatch (s.handover (Word.unsigned 32 s.insertBufferCount))] }
  else s

end State

/-- A run without a timeout, given what `get_edge` returned in each iteration. -/
def ingestionTest (library : Library) (updateBatchSize : Nat) (results : List (Option Edge)) :
    Option (List Call) :=
  (Run.run (State.step library updateBatchSize) (init updateBatchSize) results).map
    fun s => s.flush.calls

/-- The insert updates of a stream. -/
def inserts (stream : List Edge) : List PairUint :=
  (stream.filter fun e => !e.isDelete).map fun e => (e.src, e.dst)

section Tracking

/-- The collecting array as a buffer that hands over full batches. -/
def State.view (s : State) : Buffer PairUint := ⟨s.edges, s.insertBufferCount, batches s.calls⟩

/-- What stands in the two arrays after the insertions `items`: zeros, or the
sources of the last full batch beside what its call left in `dests`. -/
def stale (library : Library) (updateBatchSize : Nat) (items : List PairUint) : List PairUint :=
  if items.length < updateBatchSize then List.replicate updateBatchSize (0, 0)
  else
    let batch := lastBatch library.sort updateBatchSize (0, 0) (complete updateBatchSize items)
    (batch.map Prod.fst).zip (library.leavesDests (items.length / updateBatchSize - 1) batch)

/-- The state after the insertions `items`: the buffer is filled by them, and
the two arrays hold what the last full batch left. -/
structure Tracks (library : Library) (updateBatchSize : Nat) (items : List PairUint) (s : State) :
    Prop where
  filled : Filled library.sort id updateBatchSize (0, 0) (complete updateBatchSize items)
    (leftover updateBatchSize items) s.view
  arrays : s.insSrcs.zip s.insDests = stale library updateBatchSize items
  defined : 2 ^ 31 ≤ updateBatchSize → items.length < updateBatchSize

variable {library : Library} {updateBatchSize : Nat} {items : List PairUint} {s t : State}

theorem handover_eq (s : State) (count : Nat) :
    s.handover count = (s.insSrcs.zip s.insDests).take count := List.take_zipWith.symm

theorem batches_append (first second : List Call) :
    batches (first ++ second) = batches first ++ batches second := List.filterMap_append

theorem batches_batch (edges : List PairUint) : batches [.addEdgeBatch edges] = [edges] := rfl

theorem batches_remove (u v : UInt32) : batches [.removeEdge u v] = [] := rfl

theorem init_tracks (positive : 1 ≤ updateBatchSize) :
    Tracks library updateBatchSize [] (init updateBatchSize) := by
  refine ⟨filled_foldl positive library.sort_perm (fun _ => rfl) [], ?_, fun _ => positive⟩
  rw [stale, if_pos (show ([] : List PairUint).length < updateBatchSize from positive)]
  simp [init]

theorem last_index (positive : 1 ≤ updateBatchSize) (bound : updateBatchSize < 2 ^ 64) :
    Word.unsigned 64 ((updateBatchSize : Int) - 1) = updateBatchSize - 1 := by
  have cast : (updateBatchSize : Int) - 1 = ((updateBatchSize - 1 : Nat) : Int) := by omega
  rw [cast]
  exact Word.unsigned_natCast (by omega)

theorem zip_fst_snd (edges : List PairUint) :
    (edges.map Prod.fst).zip (edges.map Prod.snd) = edges := by
  simpa only [List.unzip_eq_map] using List.zip_unzip edges

theorem Tracks.lengths (tracks : Tracks library updateBatchSize items s) :
    s.edges.length = updateBatchSize ∧
      s.insertBufferCount = (leftover updateBatchSize items).length ∧
      s.insertBufferCount < updateBatchSize := by
  have count : s.insertBufferCount = _ := tracks.filled.count
  have short := tracks.filled.short
  exact ⟨tracks.filled.length library.sort_perm fun _ => rfl, count, by omega⟩

theorem Tracks.moved (tracks : Tracks library updateBatchSize items s) (e : Edge) :
    Tracks library updateBatchSize items { s with update := e } :=
  ⟨tracks.filled, tracks.arrays, tracks.defined⟩

theorem Tracks.number (positive : 1 ≤ updateBatchSize)
    (tracks : Tracks library updateBatchSize items s) :
    (batches s.calls).length = items.length / updateBatchSize := by
  have full : (batches s.calls).length * updateBatchSize = (complete updateBatchSize items).length :=
    tracks.filled.number
  rw [complete, List.length_take, Nat.min_eq_left (Nat.div_mul_le_self _ _)] at full
  exact Nat.eq_of_mul_eq_mul_right positive full

/-- An item that fills no batch leaves the arrays alone. -/
theorem stale_of_pending (positive : 1 ≤ updateBatchSize)
    (more : items.length % updateBatchSize + 1 < updateBatchSize) (x : PairUint) :
    stale library updateBatchSize (items ++ [x]) = stale library updateBatchSize items := by
  have split := Nat.div_add_mod items.length updateBatchSize
  have count : (items ++ [x]).length / updateBatchSize = items.length / updateBatchSize := by
    rw [List.length_append, List.length_singleton]
    conv_lhs => rw [← split]
    rw [Nat.add_assoc, Nat.mul_add_div positive, Nat.div_eq_of_lt more, Nat.add_zero]
  have same : complete updateBatchSize (items ++ [x]) = complete updateBatchSize items := by
    rw [complete, complete, count, List.take_append_of_le_length (Nat.div_mul_le_self _ _)]
  have few : (items ++ [x]).length < updateBatchSize ↔ items.length < updateBatchSize := by
    rw [← Nat.div_eq_zero_iff_lt positive, ← Nat.div_eq_zero_iff_lt positive, count]
  simp only [stale, count, same, few]

/-- An item that fills a batch leaves what the call left. -/
theorem stale_of_full (last : items.length % updateBatchSize + 1 = updateBatchSize) (x : PairUint) :
    stale library updateBatchSize (items ++ [x]) =
      let batch := lastBatch library.sort updateBatchSize (0, 0)
        (complete updateBatchSize (items ++ [x]))
      (batch.map Prod.fst).zip (library.leavesDests (items.length / updateBatchSize) batch) := by
  have split := Nat.div_add_mod items.length updateBatchSize
  have whole : (items ++ [x]).length = updateBatchSize * (items.length / updateBatchSize + 1) := by
    rw [List.length_append, List.length_singleton, Nat.mul_add_one]
    omega
  have positive : 0 < updateBatchSize := by omega
  have many : ¬(items ++ [x]).length < updateBatchSize := by
    rw [whole, Nat.not_lt]
    exact Nat.le_mul_of_pos_right _ (Nat.succ_pos _)
  rw [stale, if_neg many, whole, Nat.mul_div_cancel_left _ positive, Nat.add_sub_cancel]

/-- An insertion that is defined is one push, and a full batch goes through the two
arrays. -/
theorem insert_tracks (positive : 1 ≤ updateBatchSize) (bound : updateBatchSize < 2 ^ 64)
    (tracks : Tracks library updateBatchSize items s) {u v : UInt32}
    (done : s.insert library updateBatchSize u v = some t) :
    Tracks library updateBatchSize (items ++ [(u, v)]) t := by
  obtain ⟨size, count, short⟩ := tracks.lengths
  have next := tracks.filled.next library.sort_perm (fun _ => rfl) (u, v)
  have stored : (s.edges.set s.insertBufferCount (u, v)).length = updateBatchSize := by
    rw [List.length_set, size]
  simp only [State.insert, size, if_pos short, last_index positive bound] at done
  simp only [push, State.view, stored] at next
  split at done
  · rename_i last
    split at done
    · rename_i small
      cases Option.some.inj done
      have sorted : (library.sort (s.edges.set s.insertBufferCount (u, v))).length =
          updateBatchSize := by rw [(library.sort_perm _).length_eq, stored]
      rw [if_pos (by omega)] at next
      have batch := next.last
      rw [List.getLast?_append_of_ne_nil _ (by simp)] at batch
      have exact : items.length % updateBatchSize + 1 = updateBatchSize := by
        rw [← leftover_length, ← count]
        omega
      refine ⟨?_, ?_, fun large => absurd small (by omega)⟩
      · simp only [State.view, batches_append, batches_batch, handover_eq, zip_fst_snd,
          List.take_of_length_le sorted.le]
        exact next
      · rw [stale_of_full exact, ← batch, ← tracks.number positive]
        simp only [handover_eq, zip_fst_snd, List.take_of_length_le sorted.le]
        rfl
    · contradiction
  · rename_i more
    cases Option.some.inj done
    rw [if_neg (by omega)] at next
    have pending : items.length % updateBatchSize + 1 < updateBatchSize := by
      rw [← leftover_length, ← count]
      omega
    refine ⟨next, tracks.arrays.trans (stale_of_pending positive pending (u, v)).symm, fun large => ?_⟩
    have few := tracks.defined large
    rw [leftover_of_lt few] at count
    rw [List.length_append, List.length_singleton]
    omega

/-- An insertion is defined unless it completes a batch too large for `int j`. -/
theorem insert_defined (positive : 1 ≤ updateBatchSize) (bound : updateBatchSize < 2 ^ 64)
    (tracks : Tracks library updateBatchSize items s) (u v : UInt32)
    (small : 2 ^ 31 ≤ updateBatchSize → items.length + 1 < updateBatchSize) :
    ∃ t, s.insert library updateBatchSize u v = some t := by
  obtain ⟨size, count, short⟩ := tracks.lengths
  simp only [State.insert, size, if_pos short, last_index positive bound]
  split
  · rename_i last
    split
    · exact ⟨_, rfl⟩
    · rename_i large
      have few := tracks.defined (by omega)
      have more := small (by omega)
      rw [leftover_of_lt few] at count
      omega
  · exact ⟨_, rfl⟩

theorem inserts_append (first second : List Edge) :
    inserts (first ++ second) = inserts first ++ inserts second := by
  rw [inserts, List.filter_append, List.map_append]
  rfl

theorem inserts_cons (e : Edge) (stream : List Edge) :
    inserts (e :: stream) = inserts [e] ++ inserts stream := inserts_append [e] stream

/-- One iteration records the update's insertion, if it is one. -/
theorem step_tracks (positive : 1 ≤ updateBatchSize) (bound : updateBatchSize < 2 ^ 64)
    (tracks : Tracks library updateBatchSize items s) {e : Edge}
    (done : s.step library updateBatchSize (some e) = some t) :
    Tracks library updateBatchSize (items ++ inserts [e]) t := by
  simp only [State.step, Option.getD_some] at done
  split at done
  · rename_i deleted
    cases Option.some.inj done
    have none : inserts [e] = [] := by simp [inserts, deleted]
    rw [none, List.append_nil]
    refine ⟨?_, tracks.arrays, tracks.defined⟩
    simp only [State.view, batches_append, batches_remove, List.append_nil]
    exact tracks.filled
  · rename_i inserted
    have one : inserts [e] = [(e.src, e.dst)] := by simp [inserts, inserted]
    rw [one]
    exact insert_tracks positive bound (tracks.moved e) done

theorem step_defined (positive : 1 ≤ updateBatchSize) (bound : updateBatchSize < 2 ^ 64)
    (tracks : Tracks library updateBatchSize items s) (e : Edge)
    (small : 2 ^ 31 ≤ updateBatchSize → (items ++ inserts [e]).length < updateBatchSize) :
    ∃ t, s.step library updateBatchSize (some e) = some t := by
  simp only [State.step, Option.getD_some]
  split
  · exact ⟨_, rfl⟩
  · rename_i inserted
    have one : inserts [e] = [(e.src, e.dst)] := by simp [inserts, inserted]
    rw [one, List.length_append, List.length_singleton] at small
    exact insert_defined positive bound (tracks.moved e) _ _ small

/-- A whole run of the loop that is defined. -/
theorem run_tracks (positive : 1 ≤ updateBatchSize) (bound : updateBatchSize < 2 ^ 64)
    {stream : List Edge} (tracks : Tracks library updateBatchSize items s)
    (done : Run.run (State.step library updateBatchSize) s (stream.map some) = some t) :
    Tracks library updateBatchSize (items ++ inserts stream) t := by
  induction stream generalizing s items with
  | nil =>
    cases Option.some.inj done
    simpa only [inserts, List.filter_nil, List.map_nil, List.append_nil] using tracks
  | cons e rest ih =>
    obtain ⟨u, first, others⟩ := (Run.run_cons_some _).mp done
    rw [inserts_cons, ← List.append_assoc]
    exact ih (step_tracks positive bound tracks first) others

theorem run_defined (positive : 1 ≤ updateBatchSize) (bound : updateBatchSize < 2 ^ 64)
    {stream : List Edge} (tracks : Tracks library updateBatchSize items s)
    (small : 2 ^ 31 ≤ updateBatchSize → (items ++ inserts stream).length < updateBatchSize) :
    ∃ t, Run.run (State.step library updateBatchSize) s (stream.map some) = some t := by
  induction stream generalizing s items with
  | nil => exact ⟨s, rfl⟩
  | cons e rest ih =>
    rw [inserts_cons, ← List.append_assoc] at small
    obtain ⟨u, first⟩ := step_defined positive bound tracks e (fun large => by
      have := small large
      rw [List.length_append] at this
      omega)
    obtain ⟨t, others⟩ := ih (step_tracks positive bound tracks first) small
    exact ⟨t, (Run.run_cons_some _).mpr ⟨u, first, others⟩⟩

end Tracking

section Flush

variable {library : Library} {updateBatchSize : Nat} {items : List PairUint} {s t : State}

/-- The flush hands over the stale front of the arrays. -/
theorem flush_handed (tracks : Tracks library updateBatchSize items s) :
    handed s.flush.calls = (batches s.calls).flatten ++
      (stale library updateBatchSize items).take
        (Word.unsigned 32 (leftover updateBatchSize items).length) := by
  obtain ⟨-, count, -⟩ := tracks.lengths
  rw [State.flush]
  split
  · simp only [handed, batches_append, batches_batch, handover_eq, tracks.arrays, count,
      List.flatten_append, List.flatten_singleton]
  · rename_i none
    have zero : Word.unsigned 32 ((0 : Nat) : Int) = 0 := rfl
    rw [← count, Nat.eq_zero_of_not_pos none, zero, List.take_zero, List.append_nil, handed]

/-- The driver hands over exactly the stream's insertions when the copy loop is
defined and the pending insertions are the ones that stand in the arrays. -/
theorem ingestionTest_inserts_iff (library : Library) {updateBatchSize : Nat}
    (positive : 1 ≤ updateBatchSize) (bound : updateBatchSize < 2 ^ 64) (stream : List Edge) :
    (∃ calls, ingestionTest library updateBatchSize (stream.map some) = some calls ∧
        (handed calls).Perm (inserts stream)) ↔
      (updateBatchSize < 2 ^ 31 ∨ (inserts stream).length < updateBatchSize) ∧
        ((stale library updateBatchSize (inserts stream)).take
          (Word.unsigned 32 (leftover updateBatchSize (inserts stream)).length)).Perm
        (leftover updateBatchSize (inserts stream)) := by
  have start : Tracks library updateBatchSize [] (init updateBatchSize) := init_tracks positive
  constructor
  · rintro ⟨calls, done, perm⟩
    obtain ⟨s, reached, rfl⟩ := Option.map_eq_some_iff.mp done
    have tracks := run_tracks positive bound start reached
    rw [List.nil_append] at tracks
    rw [flush_handed tracks] at perm
    refine ⟨?_, (tracks.filled.handed_iff _).mp perm⟩
    have few := tracks.defined
    omega
  · rintro ⟨small, perm⟩
    have few : 2 ^ 31 ≤ updateBatchSize → ([] ++ inserts stream).length < updateBatchSize := by
      rw [List.nil_append]
      omega
    obtain ⟨s, reached⟩ := run_defined positive bound start few
    have tracks := run_tracks positive bound start reached
    rw [List.nil_append] at tracks
    refine ⟨s.flush.calls, by rw [ingestionTest, reached]; rfl, ?_⟩
    rw [flush_handed tracks]
    exact (tracks.filled.handed_iff _).mpr perm


/-- Two stable sorts to evaluate, and the calls for vertices with room for all
their neighbours in place, which leave `dests` as it is. -/
def Library.sample : Library where
  integerSortY := List.insertionSort fun a b => a.2 ≤ b.2
  integerSortX := List.insertionSort fun a b => a.1 ≤ b.1
  permY := List.perm_insertionSort _
  permX := List.perm_insertionSort _
  leavesDests := fun _ edges => edges.map Prod.snd

/-- Two full batches, and a pending edge that the second one left in front. -/
theorem ingestionTest_inserts_whole :
    let stream := [⟨5, 6, 0⟩, ⟨1, 2, 0⟩, ⟨3, 4, 0⟩, ⟨5, 6, 1⟩, ⟨5, 6, 0⟩, ⟨3, 4, 0⟩]
    ∃ calls, ingestionTest .sample 2 (stream.map some) = some calls ∧
      (handed calls).Perm (inserts stream) :=
  (ingestionTest_inserts_iff .sample (by decide) (by decide) _).mpr
    ⟨Or.inl (by decide), by decide +kernel⟩

/-- With a batch size of 2, a single insertion is lost and `(0, 0)` is handed
over instead. -/
theorem ingestionTest_inserts_lost :
    ¬∃ calls, ingestionTest Library.sample 2 ([⟨1, 2, 0⟩].map some) = some calls ∧
      (handed calls).Perm (inserts [⟨1, 2, 0⟩]) := by
  have run : ingestionTest Library.sample 2 ([⟨1, 2, 0⟩].map some) =
      some [.addEdgeBatch [(0, 0)]] := by decide +kernel
  rintro ⟨calls, done, perm⟩
  cases Option.some.inj (run.symm.trans done)
  exact absurd perm (by decide)

end Flush

end Terrace
end Zeppelin.Driver
