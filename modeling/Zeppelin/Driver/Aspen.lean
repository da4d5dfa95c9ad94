import Zeppelin.Machine.Batching
import Zeppelin.Machine.Run
import Zeppelin.Machine.Word
import Zeppelin.Stream.EdgeFile
import Mathlib.Data.List.Sort

/-! Aspen's `ingestion_test.cpp`, whose loop and flush `continuous_query_test.cpp`
repeats. Every update adds an edge and its reverse to one of two arrays of
`2 * update_batch_size` entries; a full array is sorted and handed over to the
graph, which sorts it again in place. The flush after the loop sorts
`delete_buffer` up to `insert_buffer_count`, not up to its own count, and it
does not end when it hands over no insertion for a graph that is not empty.
Clock readings, progress output and the timeout are left out. -/
namespace Zeppelin.Driver.Aspen

open Zeppelin.Stream Batching

/-- `std::tuple<uintV, uintV>`. -/
abbrev Arc := UInt32 × UInt32

/-- The order of tuples that `std::sort` uses. -/
def ArcLe (a b : Arc) : Prop := a.1 < b.1 ∨ a.1 = b.1 ∧ a.2 ≤ b.2

instance (a b : Arc) : Decidable (ArcLe a b) := inferInstanceAs (Decidable (_ ∨ _))

/-- The order is total, so there is one sorted rearrangement. -/
def stdSort (edges : List Arc) : List Arc := edges.insertionSort ArcLe

inductive Call where
  | insertEdgesBatch (edges : List Arc)
  | deleteEdgesBatch (edges : List Arc)
  deriving DecidableEq

def Call.inserted? : Call → Option (List Arc)
  | insertEdgesBatch edges => some edges
  | deleteEdgesBatch _ => none

def Call.deleted? : Call → Option (List Arc)
  | insertEdgesBatch _ => none
  | deleteEdgesBatch edges => some edges

structure State where
  update : Edge
  insertBuffer : List Arc
  deleteBuffer : List Arc
  insertBufferCount : Nat
  deleteBufferCount : Nat
  calls : List Call

def Call.edges : Call → List Arc
  | insertEdgesBatch edges => edges
  | deleteEdgesBatch edges => edges

/-- `sort_updates` of the graph, which rearranges the array of a call in place. It
leaves a sorted array as it is when all vertices are below the header's number. -/
structure SortUpdates where
  run : List Arc → List Arc
  perm : ∀ edges, (run edges).Perm edges

theorem SortUpdates.length (sortUpdates : SortUpdates) (edges : List Arc) :
    (sortUpdates.run edges).length = edges.length := (sortUpdates.perm edges).length_eq

/-- Whether `insert_edges_batch` returns, after the given calls. For no edges the
next graph is the root of the one before, counted twice; the release of the old
version finds this count, prints "issues 2" and exits, unless the graph is empty.
Every batch that is not empty, of deletions too, leaves vertices. -/
def insertReturns (calls : List Call) (edges : List Arc) : Bool :=
  edges ≠ [] ∨ ∀ call ∈ calls, call.edges = []

/-- The size `2 * update_batch_size` of both arrays, an `unsigned long`. -/
def capacity (updateBatchSize : Nat) : Nat := Word.unsigned 64 (2 * updateBatchSize)

def init (updateBatchSize : Nat) : State where
  update := ⟨0, 0, 0⟩
  insertBuffer := List.replicate (capacity updateBatchSize) (0, 0)
  deleteBuffer := List.replicate (capacity updateBatchSize) (0, 0)
  insertBufferCount := 0
  deleteBufferCount := 0
  calls := []

/-- What either branch of the loop does to its array and counter: the two
writes, and the batch that is handed over if the array is full. `none` is a
write past the end. -/
def store (sortUpdates : SortUpdates) (updateBatchSize : Nat) (buffer : List Arc) (count : Nat) (e1 e2 : Arc) :
    Option (List Arc × Nat × List (List Arc)) :=
  if count + 1 < buffer.length then
    let buffer := (buffer.set count e1).set (count + 1) e2
    if count + 1 = Word.unsigned 64 (2 * (updateBatchSize : Int) - 1) then
      let buffer := stdSort buffer
      some (sortUpdates.run buffer, 0, [buffer.take (capacity updateBatchSize)])
    else some (buffer, count + 2, [])
  else none

/-- `std::sort` from the start of an array up to a position; `none` is a position
past the end. -/
def sortFront (buffer : List Arc) (position : Nat) : Option (List Arc) :=
  if position ≤ buffer.length then
    some (stdSort (buffer.take position) ++ buffer.drop position)
  else none

/-- One iteration. A `get_edge` that returns false leaves `update` as it was. A full
array has edges, so its call returns. -/
def State.step (sortUpdates : SortUpdates) (updateBatchSize : Nat) (s : State) (result : Option Edge) : Option State :=
  let update := result.getD s.update
  let e1 := (update.src, update.dst)
  let e2 := (update.dst, update.src)
  if update.isDelete then
    (store sortUpdates updateBatchSize s.deleteBuffer s.deleteBufferCount e1 e2).map
      fun (buffer, count, batches) =>
        { s with
          update := update
          deleteBuffer := buffer
          deleteBufferCount := count
          calls := s.calls ++ batches.map .deleteEdgesBatch }
  else
    (store sortUpdates updateBatchSize s.insertBuffer s.insertBufferCount e1 e2).map
      fun (buffer, count, batches) =>
        { s with
          update := update
          insertBuffer := buffer
          insertBufferCount := count
          calls := s.calls ++ batches.map .insertEdgesBatch }

/-- Flush remainder of buffer contents. The process ends in the first call if it
does not return. -/
def State.flush (returns : List Call → List Arc → Bool) (s : State) : Option (List Call) := do
  let insertBuffer ← sortFront s.insertBuffer s.insertBufferCount
  let inserted := insertBuffer.take s.insertBufferCount
  if returns s.calls inserted then
    let deleteBuffer ← sortFront s.deleteBuffer s.insertBufferCount
    pure (s.calls ++ [.insertEdgesBatch inserted,
      .deleteEdgesBatch (deleteBuffer.take s.deleteBufferCount)])
  else pure (s.calls ++ [.insertEdgesBatch inserted])

/-- A run without a timeout, given what `get_edge` returned in each iteration. -/
def ingestionTest (sortUpdates : SortUpdates) (returns : List Call → List Arc → Bool)
    (updateBatchSize : Nat) (results : List (Option Edge)) : Option (List Call) :=
  (Run.run (State.step sortUpdates updateBatchSize) (init updateBatchSize) results).bind
    (State.flush returns)

/-- All edges handed to `insert_edges_batch`, and to `delete_edges_batch`. -/
def insertedArcs (calls : List Call) : List Arc := (calls.filterMap Call.inserted?).flatten

def deletedArcs (calls : List Call) : List Arc := (calls.filterMap Call.deleted?).flatten

/-- Both directions of the given updates. -/
def arcs (updates : List Edge) : List Arc :=
  updates.flatMap fun e => [(e.src, e.dst), (e.dst, e.src)]

def inserts (stream : List Edge) : List Arc := arcs (stream.filter fun e => !e.isDelete)

def deletes (stream : List Edge) : List Arc := arcs (stream.filter Edge.isDelete)

/-- The edges that wait in `insert_buffer`, and in `delete_buffer`. -/
def pendingInserts (updateBatchSize : Nat) (stream : List Edge) : List Arc :=
  leftover (capacity updateBatchSize) (inserts stream)

def pendingDeletes (updateBatchSize : Nat) (stream : List Edge) : List Arc :=
  leftover (capacity updateBatchSize) (deletes stream)

section Order

theorem arcLe_antisymm (a b : Arc) (ab : ArcLe a b) (ba : ArcLe b a) : a = b := by
  obtain ⟨a1, a2⟩ := a
  obtain ⟨b1, b2⟩ := b
  simp only [ArcLe, UInt32.lt_iff_toNat_lt, UInt32.le_iff_toNat_le, ← UInt32.toNat_inj] at ab ba
  rw [Prod.mk.injEq, ← UInt32.toNat_inj, ← UInt32.toNat_inj]
  omega

instance : Std.Total ArcLe where
  total a b := by
    simp only [ArcLe, UInt32.lt_iff_toNat_lt, UInt32.le_iff_toNat_le, ← UInt32.toNat_inj]
    omega

instance : IsTrans Arc ArcLe where
  trans a b c ab bc := by
    simp only [ArcLe, UInt32.lt_iff_toNat_lt, UInt32.le_iff_toNat_le, ← UInt32.toNat_inj] at ab bc ⊢
    omega

theorem stdSort_perm (edges : List Arc) : (stdSort edges).Perm edges :=
  List.perm_insertionSort _ _

theorem stdSort_sorted (edges : List Arc) : (stdSort edges).Pairwise ArcLe :=
  List.pairwise_insertionSort _ _

end Order

section Tracking

variable {sortUpdates : SortUpdates} {updateBatchSize : Nat} {stream : List Edge} {s t : State}

theorem capacity_eq (updateBatchSize : Nat) :
    capacity updateBatchSize = 2 * updateBatchSize % 2 ^ 64 := by
  rw [capacity, ← Word.unsigned_eq_mod]
  push_cast
  rfl

theorem two_dvd_capacity (updateBatchSize : Nat) : 2 ∣ capacity updateBatchSize := by
  rw [capacity_eq]
  omega

theorem last_position (positive : 0 < capacity updateBatchSize) :
    Word.unsigned 64 (2 * (updateBatchSize : Int) - 1) = capacity updateBatchSize - 1 := by
  rw [capacity_eq] at positive ⊢
  rw [Word.unsigned]
  omega

theorem two_dvd_leftover (updateBatchSize : Nat) {items : List Arc} (paired : 2 ∣ items.length) :
    2 ∣ (leftover (capacity updateBatchSize) items).length := by
  rw [leftover, List.length_drop]
  exact Nat.dvd_sub paired ((two_dvd_capacity updateBatchSize).mul_left _)

/-- Storing an edge and its reverse is two pushes, since the array never becomes
full between them. -/
theorem store_spec (positive : 0 < capacity updateBatchSize) {items : List Arc}
    (paired : 2 ∣ items.length) {buffer : List Arc} {count : Nat} {batches : List (List Arc)}
    (filled : Filled stdSort sortUpdates.run (capacity updateBatchSize) (0, 0)
      (complete (capacity updateBatchSize) items) (leftover (capacity updateBatchSize) items)
      ⟨buffer, count, batches⟩) (e1 e2 : Arc) :
    ∃ buffer' count' new,
      store sortUpdates updateBatchSize buffer count e1 e2 = some (buffer', count', new) ∧
      Filled stdSort sortUpdates.run (capacity updateBatchSize) (0, 0)
        (complete (capacity updateBatchSize) (items ++ [e1, e2]))
        (leftover (capacity updateBatchSize) (items ++ [e1, e2])) ⟨buffer', count', batches ++ new⟩ := by
  have size : buffer.length = capacity updateBatchSize := filled.length stdSort_perm sortUpdates.length
  have number : count = (leftover (capacity updateBatchSize) items).length := filled.count
  have short := filled.short
  have even := two_dvd_leftover updateBatchSize paired
  have whole := two_dvd_capacity updateBatchSize
  have room : count + 1 < capacity updateBatchSize := by omega
  have next := (filled.next stdSort_perm sortUpdates.length e1).next stdSort_perm
    sortUpdates.length e2
  simp only [push, List.length_set, size, if_neg (show ¬count + 1 = capacity updateBatchSize by omega),
    List.append_assoc, List.singleton_append] at next
  simp only [store, size, if_pos room, last_position positive]
  by_cases last : count + 1 = capacity updateBatchSize - 1
  · have sorted : (stdSort ((buffer.set count e1).set (count + 1) e2)).length =
        capacity updateBatchSize := by
      rw [(stdSort_perm _).length_eq, List.length_set, List.length_set, size]
    rw [if_pos (by omega)] at next
    rw [if_pos last]
    refine ⟨_, _, _, rfl, ?_⟩
    rwa [List.take_of_length_le sorted.le]
  · rw [if_neg (by omega)] at next
    rw [if_neg last]
    refine ⟨_, _, _, rfl, ?_⟩
    rwa [List.append_nil]

/-- The state after the updates of a stream: each array is filled by the edges
of its kind. -/
structure Tracks (sortUpdates : SortUpdates) (updateBatchSize : Nat) (stream : List Edge)
    (s : State) : Prop where
  inserted : Filled stdSort sortUpdates.run (capacity updateBatchSize) (0, 0)
    (complete (capacity updateBatchSize) (inserts stream))
    (leftover (capacity updateBatchSize) (inserts stream))
    ⟨s.insertBuffer, s.insertBufferCount, s.calls.filterMap Call.inserted?⟩
  deleted : Filled stdSort sortUpdates.run (capacity updateBatchSize) (0, 0)
    (complete (capacity updateBatchSize) (deletes stream))
    (leftover (capacity updateBatchSize) (deletes stream))
    ⟨s.deleteBuffer, s.deleteBufferCount, s.calls.filterMap Call.deleted?⟩

theorem init_tracks (positive : 0 < capacity updateBatchSize) :
    Tracks sortUpdates updateBatchSize [] (init updateBatchSize) := by
  exact ⟨filled_foldl positive stdSort_perm sortUpdates.length [],
    filled_foldl positive stdSort_perm sortUpdates.length []⟩

theorem two_dvd_arcs (updates : List Edge) : 2 ∣ (arcs updates).length := by
  induction updates with
  | nil => exact dvd_zero 2
  | cons e rest ih =>
    rw [arcs, List.flatMap_cons, List.length_append]
    exact Nat.dvd_add (dvd_refl 2) ih

theorem arcs_snoc (updates : List Edge) (e : Edge) :
    arcs (updates ++ [e]) = arcs updates ++ [(e.src, e.dst), (e.dst, e.src)] := by
  simp only [arcs, List.flatMap_append, List.flatMap_cons, List.flatMap_nil, List.append_nil]

theorem inserted_map_insert (batches : List (List Arc)) :
    (batches.map Call.insertEdgesBatch).filterMap Call.inserted? = batches ∧
      (batches.map Call.insertEdgesBatch).filterMap Call.deleted? = [] := by
  induction batches with
  | nil => exact ⟨rfl, rfl⟩
  | cons batch rest ih => exact ⟨congrArg (batch :: ·) ih.1, ih.2⟩

theorem deleted_map_delete (batches : List (List Arc)) :
    (batches.map Call.deleteEdgesBatch).filterMap Call.deleted? = batches ∧
      (batches.map Call.deleteEdgesBatch).filterMap Call.inserted? = [] := by
  induction batches with
  | nil => exact ⟨rfl, rfl⟩
  | cons batch rest ih => exact ⟨congrArg (batch :: ·) ih.1, ih.2⟩

/-- One iteration is defined and records its update. -/
theorem step_tracks (positive : 0 < capacity updateBatchSize)
    (tracks : Tracks sortUpdates updateBatchSize stream s) (e : Edge) :
    ∃ t, s.step sortUpdates updateBatchSize (some e) = some t ∧ Tracks sortUpdates updateBatchSize (stream ++ [e]) t := by
  obtain ⟨inserted, deleted⟩ := tracks
  cases kind : e.isDelete with
  | true =>
    obtain ⟨buffer, count, new, stored, filled⟩ :=
      store_spec positive (two_dvd_arcs _) deleted (e.src, e.dst) (e.dst, e.src)
    have same : inserts (stream ++ [e]) = inserts stream := by simp [inserts, kind]
    have more : deletes (stream ++ [e]) = deletes stream ++ [(e.src, e.dst), (e.dst, e.src)] := by
      simp [deletes, kind, arcs_snoc]
    refine ⟨_, by simp only [State.step, Option.getD_some, kind, if_true, stored, Option.map_some]; rfl,
      ?_, ?_⟩
    · simp only [same, List.filterMap_append, (deleted_map_delete new).2, List.append_nil]
      exact inserted
    · simp only [more, List.filterMap_append, (deleted_map_delete new).1]
      exact filled
  | false =>
    obtain ⟨buffer, count, new, stored, filled⟩ :=
      store_spec positive (two_dvd_arcs _) inserted (e.src, e.dst) (e.dst, e.src)
    have same : deletes (stream ++ [e]) = deletes stream := by simp [deletes, kind]
    have more : inserts (stream ++ [e]) = inserts stream ++ [(e.src, e.dst), (e.dst, e.src)] := by
      simp [inserts, kind, arcs_snoc]
    refine ⟨_, by simp only [State.step, Option.getD_some, kind, Bool.false_eq_true, if_false, stored,
      Option.map_some]; rfl, ?_, ?_⟩
    · simp only [more, List.filterMap_append, (inserted_map_insert new).1]
      exact filled
    · simp only [same, List.filterMap_append, (inserted_map_insert new).2, List.append_nil]
      exact deleted

/-- A whole run of the loop is defined and records the stream. -/
theorem run_tracks (positive : 0 < capacity updateBatchSize)
    (tracks : Tracks sortUpdates updateBatchSize stream s) (rest : List Edge) :
    ∃ t, Run.run (State.step sortUpdates updateBatchSize) s (rest.map some) = some t ∧
      Tracks sortUpdates updateBatchSize (stream ++ rest) t := by
  induction rest generalizing stream s with
  | nil => exact ⟨s, rfl, by rwa [List.append_nil]⟩
  | cons e rest ih =>
    obtain ⟨u, first, next⟩ := step_tracks positive tracks e
    obtain ⟨t, others, last⟩ := ih next
    refine ⟨t, (Run.run_cons_some _).mpr ⟨u, first, others⟩, ?_⟩
    rwa [List.append_assoc] at last

end Tracking

section Flush

variable {sortUpdates : SortUpdates} {updateBatchSize : Nat} {stream : List Edge} {s : State}

/-- The stale entries of `delete_buffer` that the flush sorts in with the pending
ones: those from the count of deletions up to that of insertions. -/
def sortedIn (sortUpdates : SortUpdates) (updateBatchSize : Nat) (stream : List Edge) : List Arc :=
  let size := capacity updateBatchSize
  let pending := (leftover size (deletes stream)).length
  ((residue stdSort sortUpdates.run size (0, 0) (complete size (deletes stream))).drop pending).take
    ((leftover size (inserts stream)).length - pending)

def PendingBelowStale (sortUpdates : SortUpdates) (updateBatchSize : Nat) (stream : List Edge) :
    Prop :=
  ∀ x ∈ pendingDeletes updateBatchSize stream,
    ∀ y ∈ sortedIn sortUpdates updateBatchSize stream, ArcLe x y

instance (sortUpdates : SortUpdates) (updateBatchSize : Nat) (stream : List Edge) :
    Decidable (PendingBelowStale sortUpdates updateBatchSize stream) :=
  have : DecidablePred fun x => ∀ y ∈ sortedIn sortUpdates updateBatchSize stream, ArcLe x y :=
    fun x => List.decidableBAll (ArcLe x) _
  List.decidableBAll _ _

/-- What the flush hands over from an array that is sorted up to a position. -/
theorem handed_front_iff {items buffer : List Arc} {size count : Nat} {batches : List (List Arc)}
    (filled : Filled stdSort sortUpdates.run size (0, 0) (complete size items) (leftover size items)
      ⟨buffer, count, batches⟩) (position : Nat) :
    (batches.flatten ++ (stdSort (buffer.take position) ++ buffer.drop position).take count).Perm
        items ↔
      ∀ x ∈ leftover size items,
        ∀ y ∈ ((residue stdSort sortUpdates.run size (0, 0) (complete size items)).drop
            (leftover size items).length).take (position - (leftover size items).length),
          ArcLe x y := by
  have cells : buffer = _ := filled.cells
  have number : count = _ := filled.count
  rw [filled.handed_iff, cells, number]
  exact take_sort_front_perm_iff arcLe_antisymm stdSort_perm stdSort_sorted _ _ position

/-- What the flush hands over from either array. -/
def State.flushedInserts (s : State) : List Arc :=
  (stdSort (s.insertBuffer.take s.insertBufferCount) ++
    s.insertBuffer.drop s.insertBufferCount).take s.insertBufferCount

def State.flushedDeletes (s : State) : List Arc :=
  (stdSort (s.deleteBuffer.take s.insertBufferCount) ++
    s.deleteBuffer.drop s.insertBufferCount).take s.deleteBufferCount

theorem flush_eq (returns : List Call → List Arc → Bool)
    (tracks : Tracks sortUpdates updateBatchSize stream s) :
    s.flush returns = some (if returns s.calls s.flushedInserts then
      s.calls ++ [.insertEdgesBatch s.flushedInserts, .deleteEdgesBatch s.flushedDeletes]
    else s.calls ++ [.insertEdgesBatch s.flushedInserts]) := by
  have insertSize : s.insertBuffer.length = _ :=
    tracks.inserted.length stdSort_perm sortUpdates.length
  have deleteSize : s.deleteBuffer.length = _ :=
    tracks.deleted.length stdSort_perm sortUpdates.length
  have count : s.insertBufferCount = _ := tracks.inserted.count
  have short := tracks.inserted.short
  have within : s.insertBufferCount ≤ capacity updateBatchSize := by omega
  simp only [State.flush, sortFront, insertSize, deleteSize, if_pos within, Option.bind_eq_bind,
    Option.bind_some]
  rw [apply_ite some]
  rfl

/-- The sorted front of `insert_buffer` is what is pending. -/
theorem inserted_front (tracks : Tracks sortUpdates updateBatchSize stream s) :
    ((s.calls.filterMap Call.inserted?).flatten ++ s.flushedInserts).Perm (inserts stream) := by
  have count : s.insertBufferCount = _ := tracks.inserted.count
  apply (handed_front_iff tracks.inserted _).mpr
  intro x _ y member
  rw [count, Nat.sub_self, List.take_zero] at member
  contradiction

/-- The front of `delete_buffer`, sorted up to the other count, is what is pending
exactly when no stale entry is sorted before a pending one. -/
theorem deleted_front_iff (tracks : Tracks sortUpdates updateBatchSize stream s) :
    ((s.calls.filterMap Call.deleted?).flatten ++ s.flushedDeletes).Perm (deletes stream) ↔
      PendingBelowStale sortUpdates updateBatchSize stream := by
  have count : s.insertBufferCount = _ := tracks.inserted.count
  rw [State.flushedDeletes, handed_front_iff tracks.deleted, count]
  rfl

/-- The flush comes to its second call, or has no deletion to hand over there: an
insertion is pending, or no deletion is, or the graph is still empty. -/
def DeletesReached (updateBatchSize : Nat) (stream : List Edge) : Prop :=
  pendingInserts updateBatchSize stream ≠ [] ∨ pendingDeletes updateBatchSize stream = [] ∨
    (inserts stream).length < capacity updateBatchSize ∧
      (deletes stream).length < capacity updateBatchSize

instance (updateBatchSize : Nat) (stream : List Edge) :
    Decidable (DeletesReached updateBatchSize stream) := inferInstanceAs (Decidable (_ ∨ _ ∨ _))

theorem edges_empty_iff (calls : List Call) :
    (∀ call ∈ calls, call.edges = []) ↔
      (calls.filterMap Call.inserted?).flatten = [] ∧ (calls.filterMap Call.deleted?).flatten = [] := by
  induction calls with
  | nil => simp
  | cons call rest ih =>
    rw [List.forall_mem_cons, ih]
    cases call with
    | insertEdgesBatch edges => simp [Call.edges, Call.inserted?, Call.deleted?, and_assoc]
    | deleteEdgesBatch edges => simp [Call.edges, Call.inserted?, Call.deleted?, and_left_comm]

/-- The first call of the flush returns when it has edges, or no batch was full. -/
theorem insertReturns_iff (positive : 0 < capacity updateBatchSize)
    (tracks : Tracks sortUpdates updateBatchSize stream s) :
    insertReturns s.calls s.flushedInserts = true ↔
      pendingInserts updateBatchSize stream ≠ [] ∨
        (inserts stream).length < capacity updateBatchSize ∧
          (deletes stream).length < capacity updateBatchSize := by
  have pending : s.flushedInserts.Perm (pendingInserts updateBatchSize stream) :=
    (tracks.inserted.handed_iff _).mp (inserted_front tracks)
  have waits : s.flushedInserts = [] ↔ pendingInserts updateBatchSize stream = [] := by
    rw [← List.length_eq_zero_iff, pending.length_eq, List.length_eq_zero_iff]
  have handed : ∀ {batches : List (List Arc)} {items : List Arc},
      batches.flatten.Perm (complete (capacity updateBatchSize) items) →
        (batches.flatten = [] ↔ items.length < capacity updateBatchSize) := by
    intro batches items perm
    rw [← complete_eq_nil_iff positive, ← List.length_eq_zero_iff, perm.length_eq,
      List.length_eq_zero_iff]
  rw [insertReturns, decide_eq_true_iff, ne_eq, waits, edges_empty_iff,
    handed tracks.inserted.handed, handed tracks.deleted.handed]

/-- The flush is defined; it hands over all pending insertions, and all pending
deletions exactly when no stale entry is sorted before one of them and its first
call returns where there is one. -/
theorem flush_spec (positive : 0 < capacity updateBatchSize)
    (tracks : Tracks sortUpdates updateBatchSize stream s) :
    ∃ calls, s.flush insertReturns = some calls ∧ (insertedArcs calls).Perm (inserts stream) ∧
      ((deletedArcs calls).Perm (deletes stream) ↔
        PendingBelowStale sortUpdates updateBatchSize stream ∧
          DeletesReached updateBatchSize stream) := by
  refine ⟨_, flush_eq insertReturns tracks, ?_, ?_⟩
  · rw [apply_ite insertedArcs]
    simp only [insertedArcs, List.filterMap_append, List.filterMap_cons, List.filterMap_nil,
      Call.inserted?, List.flatten_append, List.flatten_singleton, ite_self]
    exact inserted_front tracks
  · have returns := insertReturns_iff positive tracks
    split
    · rename_i second
      simp only [deletedArcs, List.filterMap_append, List.filterMap_cons, List.filterMap_nil,
        Call.deleted?, List.flatten_append, List.flatten_singleton]
      rw [deleted_front_iff tracks, and_iff_left]
      exact (returns.mp second).imp_right Or.inr
    · rename_i exits
      rw [returns, not_or] at exits
      simp only [deletedArcs, List.filterMap_append, List.filterMap_cons, List.filterMap_nil,
        Call.deleted?, List.append_nil]
      have rest := tracks.deleted.handed_iff []
      rw [List.append_nil, List.nil_perm] at rest
      refine rest.trans ⟨fun nothing => ⟨?_, Or.inr (Or.inl nothing)⟩, ?_⟩
      · intro x member
        rw [pendingDeletes, nothing] at member
        contradiction
      · rintro ⟨-, waits | nothing | few⟩
        · exact absurd waits exits.1
        · exact nothing
        · exact absurd few exits.2

theorem capacity_pos (positive : 1 ≤ updateBatchSize) (bound : updateBatchSize < 2 ^ 64)
    (regular : updateBatchSize ≠ 2 ^ 63) : 0 < capacity updateBatchSize := by
  rw [capacity_eq]
  omega

theorem capacity_wraps : capacity (2 ^ 63) = 0 := by decide

/-- With arrays of no entries the first update writes past the end. -/
theorem run_wrapped (e : Edge) (rest : List Edge) :
    Run.run (State.step sortUpdates (2 ^ 63)) (init (2 ^ 63)) ((e :: rest).map some) = none := by
  have past : ∀ count e1 e2,
      store sortUpdates (2 ^ 63) (List.replicate (capacity (2 ^ 63)) (0, 0)) count e1 e2 = none := by
    intro count e1 e2
    rw [store, capacity_wraps, List.replicate_zero, List.length_nil, if_neg (Nat.not_lt_zero _)]
  have stuck : (init (2 ^ 63)).step sortUpdates (2 ^ 63) (some e) = none := by
    simp only [State.step, init, past, Option.map_none, ite_self]
  rw [List.map_cons, Run.run_cons, stuck]
  rfl

theorem ingestionTest_wrapped (returns : List Call → List Arc → Bool) (e : Edge)
    (rest : List Edge) :
    ingestionTest sortUpdates returns (2 ^ 63) ((e :: rest).map some) = none := by
  rw [ingestionTest, run_wrapped]
  rfl

theorem ingestionTest_empty (updateBatchSize : Nat) :
    ingestionTest sortUpdates insertReturns updateBatchSize [] =
      some [.insertEdgesBatch [], .deleteEdgesBatch []] := by
  simp [ingestionTest, Run.run, State.flush, sortFront, init, stdSort, insertReturns]

/-- The driver hands over exactly the stream's updates, in both directions and
inside its arrays, when the size of the arrays does not wrap to zero, no pending
deletion is above a stale entry sorted in with it, and the call for the pending
insertions comes back. -/
theorem ingestionTest_updates_iff (sortUpdates : SortUpdates) {updateBatchSize : Nat}
    (positive : 1 ≤ updateBatchSize) (bound : updateBatchSize < 2 ^ 64) (stream : List Edge) :
    (∃ calls, ingestionTest sortUpdates insertReturns updateBatchSize (stream.map some) = some calls ∧
        (insertedArcs calls).Perm (inserts stream) ∧
        (deletedArcs calls).Perm (deletes stream)) ↔
      (updateBatchSize ≠ 2 ^ 63 ∨ stream = []) ∧
        PendingBelowStale sortUpdates updateBatchSize stream ∧
        DeletesReached updateBatchSize stream := by
  by_cases wraps : updateBatchSize = 2 ^ 63
  · subst wraps
    cases stream with
    | nil =>
      have nothing : pendingDeletes (2 ^ 63) [] = [] := by
        simp [pendingDeletes, leftover, deletes, arcs]
      have below : PendingBelowStale sortUpdates (2 ^ 63) [] := by
        intro x member
        rw [nothing] at member
        contradiction
      constructor
      · exact fun _ => ⟨Or.inr rfl, below, Or.inr (Or.inl nothing)⟩
      · exact fun _ => ⟨_, ingestionTest_empty _, List.Perm.refl _, List.Perm.refl _⟩
    | cons e rest =>
      rw [ingestionTest_wrapped]
      constructor
      · rintro ⟨calls, impossible, -⟩
        contradiction
      · rintro ⟨contrary | contrary, -⟩
        · contradiction
        · contradiction
  · have size := capacity_pos positive bound wraps
    have start : Tracks sortUpdates updateBatchSize [] (init updateBatchSize) := init_tracks size
    obtain ⟨s, reached, tracks⟩ := run_tracks size start stream
    rw [List.nil_append] at tracks
    obtain ⟨calls, flushed, inserted, deleted⟩ := flush_spec size tracks
    have done : ingestionTest sortUpdates insertReturns updateBatchSize (stream.map some) =
        some calls := by
      rw [ingestionTest, reached, Option.bind_some, flushed]
    constructor
    · rintro ⟨calls', done', -, perm⟩
      cases Option.some.inj (done.symm.trans done')
      exact ⟨Or.inl wraps, deleted.mp perm⟩
    · rintro ⟨-, kept⟩
      exact ⟨calls, done, inserted, deleted.mpr kept⟩

/-- Sorting a sorted array again, as for vertices below the header's number. -/
def SortUpdates.sample : SortUpdates where
  run := stdSort
  perm := stdSort_perm

/-- A full batch and a pending update of either kind. -/
theorem ingestionTest_updates_whole :
    let stream := [⟨1, 2, 0⟩, ⟨3, 4, 0⟩, ⟨1, 2, 1⟩, ⟨5, 6, 0⟩, ⟨3, 4, 1⟩, ⟨5, 6, 1⟩]
    ∃ calls, ingestionTest .sample insertReturns 2 (stream.map some) = some calls ∧
      (insertedArcs calls).Perm (inserts stream) ∧ (deletedArcs calls).Perm (deletes stream) := by
  intro stream
  have kept : PendingBelowStale .sample 2 stream ∧ DeletesReached 2 stream := by decide +kernel
  exact (ingestionTest_updates_iff .sample (by decide) (by decide) stream).mpr
    ⟨Or.inl (by decide), kept⟩

/-- With a batch size of 3, two insertions and one deletion pending, the flush
hands over `(0, 0)` in place of the deletion. -/
theorem ingestionTest_updates_lost :
    ¬∃ calls, ingestionTest .sample insertReturns 3
        ([⟨1, 2, 0⟩, ⟨3, 4, 0⟩, ⟨1, 2, 1⟩].map some) = some calls ∧
      (insertedArcs calls).Perm (inserts [⟨1, 2, 0⟩, ⟨3, 4, 0⟩, ⟨1, 2, 1⟩]) ∧
      (deletedArcs calls).Perm (deletes [⟨1, 2, 0⟩, ⟨3, 4, 0⟩, ⟨1, 2, 1⟩]) := by
  have run : ingestionTest .sample insertReturns 3 ([⟨1, 2, 0⟩, ⟨3, 4, 0⟩, ⟨1, 2, 1⟩].map some) =
      some [.insertEdgesBatch [(1, 2), (2, 1), (3, 4), (4, 3)],
        .deleteEdgesBatch [(0, 0), (0, 0)]] := by decide +kernel
  rintro ⟨calls, done, -, perm⟩
  cases Option.some.inj (run.symm.trans done)
  exact absurd perm (by decide)

end Flush

end Zeppelin.Driver.Aspen
