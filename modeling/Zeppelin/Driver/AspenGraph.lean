import Zeppelin.Driver.Aspen
import Zeppelin.Machine.Lanes

/-! The graph that Aspen's driver leaves, against the one of the stream's updates
in order. Insertions and deletions wait in arrays of their own, so the two graphs
differ as soon as the last update of an edge is handed over while an earlier
update of the other kind still waits. -/
namespace Zeppelin.Driver.Aspen

open Zeppelin.Stream Batching Lanes

/-- `insert_edges_batch` as set union and `delete_edges_batch` as set difference,
which always return. -/
def Call.change : Call → Change Arc
  | insertEdgesBatch edges => .add edges
  | deleteEdgesBatch edges => .remove edges

def setReturns : List Call → List Arc → Bool := fun _ _ => true

/-- The edge set after the calls, in their order. -/
def graph (calls : List Call) : Finset Arc := inOrder (calls.map Call.change)

/-- One update of the stream, in both directions. -/
def change (e : Edge) : Change Arc :=
  if e.isDelete then .remove [(e.src, e.dst), (e.dst, e.src)]
  else .add [(e.src, e.dst), (e.dst, e.src)]

/-- The edge set of the updates applied one at a time. -/
def sequential (stream : List Edge) : Finset Arc := inOrder (stream.map change)

/-- The updates of every undirected edge alternate. -/
def Alternates (stream : List Edge) : Prop :=
  ∀ u v, AlternatesOn (fun e => (e.src, e.dst) = (u, v) ∨ (e.src, e.dst) = (v, u)) stream

/-- After its last update an edge never waits in the other array alone, and an
edge that was inserted last does not wait in `delete_buffer` at the end. -/
def NotOvertaken (updateBatchSize : Nat) (stream : List Edge) : Prop :=
  ∀ before e after, stream = before ++ e :: after →
    ∀ x ∈ [(e.src, e.dst), (e.dst, e.src)], x ∉ arcs after →
      (e.isDelete = true → ∀ part, part <+: after →
        x ∈ pendingInserts updateBatchSize (before ++ e :: part) →
          x ∈ pendingDeletes updateBatchSize (before ++ e :: part)) ∧
      (e.isDelete = false →
        (∀ part, part <+: after → x ∈ pendingDeletes updateBatchSize (before ++ e :: part) →
          x ∈ pendingInserts updateBatchSize (before ++ e :: part)) ∧
        x ∉ pendingDeletes updateBatchSize stream)

section Changes

theorem change_items (e : Edge) : (change e).items = [(e.src, e.dst), (e.dst, e.src)] := by
  rw [change]
  split <;> rfl

theorem changes_uniform (stream : List Edge) : ∀ c ∈ stream.map change, c.items.length = 2 := by
  intro c member
  obtain ⟨e, -, rfl⟩ := List.mem_map.mp member
  rw [change_items]
  rfl

theorem changes_added (stream : List Edge) :
    (stream.map change).flatMap Change.added = inserts stream := by
  induction stream with
  | nil => rfl
  | cons e rest ih =>
    rw [List.map_cons, List.flatMap_cons, ih]
    cases kind : e.isDelete <;> simp [inserts, arcs, change, kind, Change.added]

theorem changes_removed (stream : List Edge) :
    (stream.map change).flatMap Change.removed = deletes stream := by
  induction stream with
  | nil => rfl
  | cons e rest ih =>
    rw [List.map_cons, List.flatMap_cons, ih]
    cases kind : e.isDelete <;> simp [deletes, arcs, change, kind, Change.removed]

theorem mem_removed_iff {e : Edge} {x : Arc} (here : x ∈ [(e.src, e.dst), (e.dst, e.src)]) :
    x ∈ (change e).removed ↔ e.isDelete = true := by
  cases kind : e.isDelete with
  | true => simpa [change, kind, Change.removed] using here
  | false => simp [change, kind, Change.removed]

theorem mem_added_iff {e : Edge} {x : Arc} (here : x ∈ [(e.src, e.dst), (e.dst, e.src)]) :
    x ∈ (change e).added ↔ e.isDelete = false := by
  cases kind : e.isDelete with
  | true => simp [change, kind, Change.added]
  | false => simpa [change, kind, Change.added] using here

theorem absent_iff {updates : List Edge} {x : Arc} :
    (∀ d ∈ updates, x ∉ [(d.src, d.dst), (d.dst, d.src)]) ↔ x ∉ arcs updates := by
  simp only [arcs, List.mem_flatMap, not_exists, not_and]

end Changes

section Refinement

variable {sortUpdates : SortUpdates} {updateBatchSize : Nat} {stream : List Edge} {s t : State}

/-- The lanes of the abstract model, of the size of the arrays. -/
def lanes (updateBatchSize : Nat) (stream : List Edge) : Lanes.State Arc :=
  Lanes.run (capacity updateBatchSize) (capacity updateBatchSize) (stream.map change)

theorem lanes_adding (positive : 0 < capacity updateBatchSize) (stream : List Edge) :
    (lanes updateBatchSize stream).adding = pendingInserts updateBatchSize stream := by
  rw [lanes, run_adding positive (two_dvd_capacity _) (changes_uniform stream), changes_added]
  rfl

theorem lanes_removing (positive : 0 < capacity updateBatchSize) (stream : List Edge) :
    (lanes updateBatchSize stream).removing = pendingDeletes updateBatchSize stream := by
  rw [lanes, run_removing positive (two_dvd_capacity _) (changes_uniform stream), changes_removed]
  rfl

theorem lanes_snoc (stream : List Edge) (e : Edge) :
    lanes updateBatchSize (stream ++ [e]) =
      (lanes updateBatchSize stream).step (capacity updateBatchSize) (capacity updateBatchSize)
        (change e) := by
  rw [lanes, List.map_append, List.map_singleton, run_snoc]
  rfl

theorem graph_inserts (calls : List Call) (new : List (List Arc)) :
    graph (calls ++ new.map .insertEdgesBatch) = graph calls ∪ new.flatten.toFinset := by
  rw [graph, List.map_append, List.map_map]
  exact inOrder_adds _ new

theorem graph_deletes (calls : List Call) (new : List (List Arc)) :
    graph (calls ++ new.map .deleteEdgesBatch) = graph calls \ new.flatten.toFinset := by
  rw [graph, List.map_append, List.map_map]
  exact inOrder_removes _ new

/-- An iteration calls one of the two functions only, for the batches it hands
over. -/
theorem step_calls {e : Edge} (done : s.step sortUpdates updateBatchSize (some e) = some t) :
    ∃ new : List (List Arc), t.calls = s.calls ++
      if e.isDelete then new.map .deleteEdgesBatch else new.map .insertEdgesBatch := by
  simp only [State.step, Option.getD_some] at done
  split at done
  · rename_i deleted
    obtain ⟨⟨buffer, count, new⟩, -, rfl⟩ := Option.map_eq_some_iff.mp done
    exact ⟨new, by rw [if_pos deleted]⟩
  · rename_i inserted
    obtain ⟨⟨buffer, count, new⟩, -, rfl⟩ := Option.map_eq_some_iff.mp done
    exact ⟨new, by rw [if_neg inserted]⟩

/-- One iteration does to the graph what one step does to the lanes. -/
theorem step_graph (positive : 0 < capacity updateBatchSize) {e : Edge}
    (tracks : Tracks sortUpdates updateBatchSize stream s) (next : Tracks sortUpdates updateBatchSize (stream ++ [e]) t)
    (done : s.step sortUpdates updateBatchSize (some e) = some t)
    (same : graph s.calls = (lanes updateBatchSize stream).settled) :
    graph t.calls = (lanes updateBatchSize (stream ++ [e])).settled := by
  obtain ⟨new, calls⟩ := step_calls done
  rw [lanes_snoc, calls]
  cases kind : e.isDelete with
  | true =>
    have more : deletes (stream ++ [e]) = deletes stream ++ [(e.src, e.dst), (e.dst, e.src)] := by
      simp [deletes, kind, arcs_snoc]
    have second := next.deleted
    rw [more, calls, if_pos kind, List.filterMap_append, (deleted_map_delete new).1] at second
    rw [if_pos rfl, graph_deletes, same, change, if_pos kind]
    exact (step_remove_settled positive (two_dvd_capacity _) (lanes_removing positive stream)
      (two_dvd_arcs _) rfl (tracks.deleted.handed_step second)).symm
  | false =>
    have more : inserts (stream ++ [e]) = inserts stream ++ [(e.src, e.dst), (e.dst, e.src)] := by
      simp [inserts, kind, arcs_snoc]
    have second := next.inserted
    rw [more, calls, kind, if_neg (by decide), List.filterMap_append,
      (inserted_map_insert new).1] at second
    rw [if_neg (by decide), graph_inserts, same, change, kind, if_neg (by decide)]
    exact (step_add_settled positive (two_dvd_capacity _) (lanes_adding positive stream)
      (two_dvd_arcs _) rfl (tracks.inserted.handed_step second)).symm

/-- The loop leaves the settled set of the lanes. -/
theorem run_graph (positive : 0 < capacity updateBatchSize)
    (tracks : Tracks sortUpdates updateBatchSize stream s)
    (same : graph s.calls = (lanes updateBatchSize stream).settled) (rest : List Edge) :
    ∃ t, Run.run (State.step sortUpdates updateBatchSize) s (rest.map some) = some t ∧
      Tracks sortUpdates updateBatchSize (stream ++ rest) t ∧
      graph t.calls = (lanes updateBatchSize (stream ++ rest)).settled := by
  induction rest generalizing stream s with
  | nil => exact ⟨s, rfl, by rwa [List.append_nil], by rwa [List.append_nil]⟩
  | cons e rest ih =>
    obtain ⟨u, first, next⟩ := step_tracks positive tracks e
    obtain ⟨t, others, last, final⟩ := ih next (step_graph positive tracks next first same)
    rw [List.append_assoc, List.singleton_append] at last final
    exact ⟨t, (Run.run_cons_some _).mpr ⟨u, first, others⟩, last, final⟩

end Refinement

section Final

variable {sortUpdates : SortUpdates} {updateBatchSize : Nat} {stream : List Edge} {s : State}

/-- The lanes keep the order that matters when no update is overtaken. -/
theorem keepsOrder_iff (positive : 0 < capacity updateBatchSize) (stream : List Edge) :
    KeepsOrder (capacity updateBatchSize) (capacity updateBatchSize) (stream.map change) ↔
      NotOvertaken updateBatchSize stream := by
  have adding := lanes_adding positive
  have removing := lanes_removing positive
  simp only [lanes] at adding removing
  rw [keepsOrder_map]
  simp only [adding, removing, change_items]
  constructor
  · intro keeps before e after split x here absent
    have kept := keeps before e after split x here (absent_iff.mpr absent)
    rwa [mem_removed_iff here, mem_added_iff here] at kept
  · intro kept before e after split x here absent
    rw [mem_removed_iff here, mem_added_iff here]
    exact kept before e after split x here (absent_iff.mp absent)

/-- The flush empties both lanes when it hands over the pending deletions. -/
theorem flush_graph (positive : 0 < capacity updateBatchSize)
    (tracks : Tracks sortUpdates updateBatchSize stream s)
    (below : PendingBelowStale sortUpdates updateBatchSize stream)
    (same : graph s.calls = (lanes updateBatchSize stream).settled) :
    ∃ calls, s.flush setReturns = some calls ∧ graph calls = (lanes updateBatchSize stream).flushed := by
  refine ⟨_, flush_eq setReturns tracks, ?_⟩
  have first := (tracks.inserted.handed_iff _).mp (inserted_front tracks)
  have second := (tracks.deleted.handed_iff _).mp ((deleted_front_iff tracks).mpr below)
  rw [setReturns, if_pos rfl, graph, List.map_append, inOrder_append]
  change (graph s.calls ∪ _) \ _ = _
  rw [same, List.toFinset_eq_of_perm _ _ first, List.toFinset_eq_of_perm _ _ second,
    Lanes.State.flushed, lanes_adding positive, lanes_removing positive]
  rfl

/-- Batched ingestion leaves the graph of the updates in order exactly when no
edge is overtaken, for every stream whose pending deletions the flush hands
over. -/
theorem ingestionTest_graph_iff (sortUpdates : SortUpdates) {updateBatchSize : Nat} (positive : 1 ≤ updateBatchSize)
    (bound : updateBatchSize < 2 ^ 64) (regular : updateBatchSize ≠ 2 ^ 63) {stream : List Edge}
    (below : PendingBelowStale sortUpdates updateBatchSize stream) :
    ∃ calls, ingestionTest sortUpdates setReturns updateBatchSize (stream.map some) = some calls ∧
      (graph calls = sequential stream ↔ NotOvertaken updateBatchSize stream) := by
  have size := capacity_pos positive bound regular
  have start : Tracks sortUpdates updateBatchSize [] (init updateBatchSize) := init_tracks size
  obtain ⟨s, reached, tracks, same⟩ := run_graph size start rfl stream
  rw [List.nil_append] at tracks same
  obtain ⟨calls, flushed, final⟩ := flush_graph size tracks below same
  refine ⟨calls, by rw [ingestionTest, reached, Option.bind_some, flushed], ?_⟩
  rw [final, sequential, lanes, flushed_eq_inOrder_iff, keepsOrder_iff size]

theorem ingestionTest_graph_sample :
    ∃ calls, ingestionTest .sample setReturns 2 ([⟨1, 2, 0⟩, ⟨3, 4, 0⟩, ⟨1, 2, 1⟩].map some) = some calls ∧
      (graph calls = sequential [⟨1, 2, 0⟩, ⟨3, 4, 0⟩, ⟨1, 2, 1⟩] ↔
        NotOvertaken 2 [⟨1, 2, 0⟩, ⟨3, 4, 0⟩, ⟨1, 2, 1⟩]) :=
  ingestionTest_graph_iff .sample (by decide) (by decide) (by decide) (by decide +kernel)

/-- With a batch size of 2, the second insertion of an edge completes a batch
while the deletion between the two still waits; the flush then deletes the edge. -/
theorem ingestionTest_graph_overtaken :
    ¬∀ updateBatchSize ≥ 1, ∀ stream, Alternates stream →
      ∃ calls, ingestionTest .sample setReturns updateBatchSize (stream.map some) = some calls ∧
        graph calls = sequential stream := by
  intro preserves
  have alternates : Alternates [⟨1, 2, 0⟩, ⟨1, 2, 1⟩, ⟨1, 2, 0⟩] := by
    intro u v i deleted found
    by_cases same : ((1, 2) : Arc) = (u, v) ∨ ((1, 2) : Arc) = (v, u)
    · simp only [List.filter_cons, same, decide_true, if_true, List.filter_nil] at found
      match i, found with
      | 0, found => exact Option.some.inj found ▸ rfl
      | 1, found => exact Option.some.inj found ▸ rfl
      | 2, found => exact Option.some.inj found ▸ rfl
    · simp only [List.filter_cons, same, decide_false, Bool.false_eq_true, if_false,
        List.filter_nil, List.map_nil, List.getElem?_nil, reduceCtorEq] at found
  obtain ⟨calls, done, equal⟩ := preserves 2 (by decide) _ alternates
  have run : ingestionTest .sample setReturns 2 ([⟨1, 2, 0⟩, ⟨1, 2, 1⟩, ⟨1, 2, 0⟩].map some) =
      some [.insertEdgesBatch [(1, 2), (1, 2), (2, 1), (2, 1)], .insertEdgesBatch [],
        .deleteEdgesBatch [(1, 2), (2, 1)]] := by decide +kernel
  cases Option.some.inj (run.symm.trans done)
  exact absurd equal (by decide +kernel)

end Final

end Zeppelin.Driver.Aspen
