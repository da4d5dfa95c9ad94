import Zeppelin.Driver.Terrace
import Zeppelin.Machine.Lanes

/-! The graph that Terrace's driver leaves, against the one of the stream's
updates in order. Deletions are applied at once and insertions wait for their
batch, so a deletion can come before the insertion it cancels. -/
namespace Zeppelin.Driver.Terrace

open Zeppelin.Stream Batching Lanes

/-- `add_edge_batch` as set union, `remove_edge` as the removal of one pair. -/
def Call.change : Call → Change PairUint
  | addEdgeBatch edges => .add edges
  | removeEdge u v => .remove [(u, v)]

/-- The edge set after the calls, in their order. -/
def graph (calls : List Call) : Finset PairUint := inOrder (calls.map Call.change)

def change (e : Edge) : Change PairUint :=
  if e.isDelete then .remove [(e.src, e.dst)] else .add [(e.src, e.dst)]

/-- The edge set of the updates applied one at a time. -/
def sequential (stream : List Edge) : Finset PairUint := inOrder (stream.map change)

/-- The updates of every pair alternate. -/
def Alternates (stream : List Edge) : Prop :=
  ∀ u v, AlternatesOn (fun e => (e.src, e.dst) = (u, v)) stream

/-- No pair is deleted for the last time while an insertion of it waits for its
batch to be full. -/
def NotOvertaken (updateBatchSize : Nat) (stream : List Edge) : Prop :=
  ∀ before e after, stream = before ++ e :: after → e.isDelete = true →
    (∀ d ∈ after, (d.src, d.dst) ≠ (e.src, e.dst)) →
      (e.src, e.dst) ∉ leftover updateBatchSize (inserts before)

section Changes

theorem change_items (e : Edge) : (change e).items = [(e.src, e.dst)] := by
  rw [change]
  split <;> rfl

theorem changes_uniform (stream : List Edge) : ∀ c ∈ stream.map change, c.items.length = 1 := by
  intro c member
  obtain ⟨e, -, rfl⟩ := List.mem_map.mp member
  rw [change_items]
  rfl

theorem changes_added (stream : List Edge) :
    (stream.map change).flatMap Change.added = inserts stream := by
  induction stream with
  | nil => rfl
  | cons e rest ih =>
    rw [List.map_cons, List.flatMap_cons, ih, inserts_cons e rest]
    cases kind : e.isDelete <;> simp [inserts, change, kind, Change.added]

theorem mem_removed_iff (e : Edge) :
    (e.src, e.dst) ∈ (change e).removed ↔ e.isDelete = true := by
  cases kind : e.isDelete with
  | true => simp [change, kind, Change.removed]
  | false => simp [change, kind, Change.removed]

end Changes

section Refinement

variable {library : Library} {updateBatchSize : Nat} {stream : List Edge} {s t : State}

/-- The lanes of the abstract model: a deletion fills its lane at once. -/
def lanes (updateBatchSize : Nat) (stream : List Edge) : Lanes.State PairUint :=
  Lanes.run updateBatchSize 1 (stream.map change)

theorem lanes_adding (positive : 1 ≤ updateBatchSize) (stream : List Edge) :
    (lanes updateBatchSize stream).adding = leftover updateBatchSize (inserts stream) := by
  rw [lanes, run_adding positive (one_dvd _) (changes_uniform stream), changes_added]

theorem lanes_removing (updateBatchSize : Nat) (stream : List Edge) :
    (lanes updateBatchSize stream).removing = [] := by
  rw [lanes, run_removing Nat.one_pos (dvd_refl 1) (changes_uniform stream)]
  apply List.eq_nil_of_length_eq_zero
  rw [leftover_length, Nat.mod_one]

theorem lanes_snoc (stream : List Edge) (e : Edge) :
    lanes updateBatchSize (stream ++ [e]) =
      (lanes updateBatchSize stream).step updateBatchSize 1 (change e) := by
  rw [lanes, List.map_append, List.map_singleton, run_snoc]
  rfl

theorem graph_adds (calls : List Call) (new : List (List PairUint)) :
    graph (calls ++ new.map .addEdgeBatch) = graph calls ∪ new.flatten.toFinset := by
  rw [graph, List.map_append, List.map_map]
  exact inOrder_adds _ new

theorem graph_remove (calls : List Call) (u v : UInt32) :
    graph (calls ++ [.removeEdge u v]) = graph calls \ {(u, v)} := by
  rw [graph, List.map_append, inOrder_append]
  rfl

theorem insert_calls {u v : UInt32} (done : s.insert library updateBatchSize u v = some t) :
    ∃ new : List (List PairUint), t.calls = s.calls ++ new.map .addEdgeBatch := by
  simp only [State.insert] at done
  split at done
  · split at done
    · split at done
      · cases Option.some.inj done
        exact ⟨[_], rfl⟩
      · contradiction
    · cases Option.some.inj done
      exact ⟨[], (List.append_nil _).symm⟩
  · contradiction

theorem batches_map_add (new : List (List PairUint)) : batches (new.map .addEdgeBatch) = new := by
  rw [batches, List.filterMap_map]
  exact List.filterMap_some

/-- One iteration does to the graph what one step does to the lanes. -/
theorem step_graph (positive : 1 ≤ updateBatchSize) {e : Edge}
    (tracks : Tracks library updateBatchSize (inserts stream) s)
    (next : Tracks library updateBatchSize (inserts (stream ++ [e])) t)
    (done : s.step library updateBatchSize (some e) = some t)
    (same : graph s.calls = (lanes updateBatchSize stream).settled) :
    graph t.calls = (lanes updateBatchSize (stream ++ [e])).settled := by
  rw [lanes_snoc]
  simp only [State.step, Option.getD_some] at done
  cases kind : e.isDelete with
  | true =>
    rw [if_pos kind] at done
    cases Option.some.inj done
    rw [graph_remove, same, change, if_pos kind, Lanes.State.step, lanes_removing]
    rfl
  | false =>
    rw [kind, if_neg (by decide)] at done
    obtain ⟨new, calls⟩ := insert_calls done
    have one : inserts [e] = [(e.src, e.dst)] := by simp [inserts, kind]
    have second := next.filled
    rw [inserts_append, one, State.view, calls, batches_append, batches_map_add] at second
    rw [calls, graph_adds, change, kind, if_neg (by decide)]
    refine (congrArg (· ∪ _) same).trans ?_
    exact (step_add_settled positive (one_dvd _) (lanes_adding positive stream) (one_dvd _) rfl
      (tracks.filled.handed_step second)).symm

/-- The loop leaves the settled set of the lanes. -/
theorem run_graph (positive : 1 ≤ updateBatchSize) (bound : updateBatchSize < 2 ^ 64)
    (tracks : Tracks library updateBatchSize (inserts stream) s)
    (same : graph s.calls = (lanes updateBatchSize stream).settled) {rest : List Edge}
    (done : Run.run (State.step library updateBatchSize) s (rest.map some) = some t) :
    graph t.calls = (lanes updateBatchSize (stream ++ rest)).settled := by
  induction rest generalizing stream s with
  | nil =>
    cases Option.some.inj done
    rwa [List.append_nil]
  | cons e rest ih =>
    obtain ⟨u, first, others⟩ := (Run.run_cons_some _).mp done
    have next := step_tracks positive bound tracks first
    rw [← inserts_append] at next
    have final := ih next (step_graph positive tracks next first same) others
    rwa [List.append_assoc, List.singleton_append] at final

end Refinement

section Final

variable {updateBatchSize : Nat}

/-- An item is left over only if it was before or was added since. -/
theorem mem_leftover_append (positive : 1 ≤ updateBatchSize) {items added : List PairUint}
    {x : PairUint} (member : x ∈ leftover updateBatchSize (items ++ added)) :
    x ∈ leftover updateBatchSize items ∨ x ∈ added := by
  rw [leftover_append positive] at member
  exact List.mem_append.mp (List.mem_of_mem_drop member)

/-- The lanes keep the order that matters when no pair is deleted while it waits:
after its last deletion a pair does not come to wait again. -/
theorem keepsOrder_iff (positive : 1 ≤ updateBatchSize) (stream : List Edge) :
    KeepsOrder updateBatchSize 1 (stream.map change) ↔ NotOvertaken updateBatchSize stream := by
  have adding := lanes_adding positive
  have removing := lanes_removing updateBatchSize
  simp only [lanes] at adding removing
  rw [keepsOrder_map]
  simp only [adding, removing, change_items, List.mem_singleton, List.not_mem_nil, imp_false,
    false_imp_iff, implies_true, not_false_eq_true, and_true]
  constructor
  · intro keeps before e after split deleted absent waits
    have kept := keeps before e after split _ rfl (fun d hd same => absent d hd same.symm)
      ((mem_removed_iff e).mpr deleted) [] List.nil_prefix
    have nothing : inserts [e] = [] := by simp [inserts, deleted]
    rw [inserts_append, nothing, List.append_nil] at kept
    exact kept waits
  · rintro kept before e after split x rfl absent removed part begins waits
    have deleted := (mem_removed_iff e).mp removed
    have nothing : inserts [e] = [] := by simp [inserts, deleted]
    rw [inserts_append, inserts_cons, nothing, List.nil_append] at waits
    rcases mem_leftover_append positive waits with early | late
    · exact kept before e after split deleted (fun d hd same => absent d hd same.symm) early
    · obtain ⟨d, listed, same⟩ := List.mem_map.mp late
      exact absent d (begins.subset (List.mem_of_mem_filter listed)) same.symm

/-- When the insertions fill whole batches, ingestion leaves the graph of the
updates in order exactly when no pair is overtaken. -/
theorem ingestionTest_pairs_iff (library : Library) {updateBatchSize : Nat}
    (positive : 1 ≤ updateBatchSize) (bound : updateBatchSize < 2 ^ 64) {stream : List Edge}
    (small : updateBatchSize < 2 ^ 31 ∨ (inserts stream).length < updateBatchSize)
    (whole : updateBatchSize ∣ (inserts stream).length) :
    ∃ calls, ingestionTest library updateBatchSize (stream.map some) = some calls ∧
      (graph calls = sequential stream ↔ NotOvertaken updateBatchSize stream) := by
  have start : Tracks library updateBatchSize (inserts []) (init updateBatchSize) :=
    init_tracks positive
  have few : 2 ^ 31 ≤ updateBatchSize → (inserts [] ++ inserts stream).length < updateBatchSize := by
    rw [← inserts_append, List.nil_append]
    omega
  obtain ⟨s, reached⟩ := run_defined positive bound start few
  have tracks := run_tracks positive bound start reached
  have same := run_graph positive bound start rfl reached
  rw [← inserts_append] at tracks
  rw [List.nil_append] at tracks same
  have nothing : leftover updateBatchSize (inserts stream) = [] := by
    apply List.eq_nil_of_length_eq_zero
    rw [leftover_length, Nat.mod_eq_zero_of_dvd whole]
  have empty : s.insertBufferCount = 0 := by rw [tracks.lengths.2.1, nothing, List.length_nil]
  have flushed : (lanes updateBatchSize stream).flushed = (lanes updateBatchSize stream).settled := by
    rw [Lanes.State.flushed, lanes_adding positive, lanes_removing, nothing, List.toFinset_nil,
      Finset.union_empty, Finset.sdiff_empty]
  refine ⟨s.calls, ?_, ?_⟩
  · rw [ingestionTest, reached, Option.map_some, State.flush, empty, if_neg (Nat.lt_irrefl 0)]
  · rw [same, ← flushed, sequential, lanes, flushed_eq_inOrder_iff, keepsOrder_iff positive]

theorem ingestionTest_pairs_sample :
    ∃ calls, ingestionTest Library.sample 2
        ([⟨1, 2, 0⟩, ⟨3, 4, 0⟩, ⟨1, 2, 1⟩].map some) = some calls ∧
      (graph calls = sequential [⟨1, 2, 0⟩, ⟨3, 4, 0⟩, ⟨1, 2, 1⟩] ↔
        NotOvertaken 2 [⟨1, 2, 0⟩, ⟨3, 4, 0⟩, ⟨1, 2, 1⟩]) :=
  ingestionTest_pairs_iff Library.sample (by decide) (by decide) (Or.inl (by decide)) (by decide)

/-- With a batch size of 2, a deletion right after the insertion finds nothing to
remove, and the next insertion completes the batch with both. -/
theorem ingestionTest_pairs_overtaken :
    ¬∀ updateBatchSize ≥ 1, ∀ stream, Alternates stream →
      updateBatchSize ∣ (inserts stream).length →
        ∃ calls, ingestionTest Library.sample updateBatchSize (stream.map some) = some calls ∧
          graph calls = sequential stream := by
  intro preserves
  have alternates : Alternates [⟨1, 2, 0⟩, ⟨1, 2, 1⟩, ⟨3, 4, 0⟩] := by
    intro u v i deleted found
    by_cases first : ((1, 2) : PairUint) = (u, v)
    · have second : ¬((3, 4) : PairUint) = (u, v) := by
        rw [← first]
        decide
      simp only [List.filter_cons, first, second, decide_true, decide_false, Bool.false_eq_true,
        if_true, if_false, List.filter_nil] at found
      match i, found with
      | 0, found => exact Option.some.inj found ▸ rfl
      | 1, found => exact Option.some.inj found ▸ rfl
    · by_cases second : ((3, 4) : PairUint) = (u, v)
      · simp only [List.filter_cons, first, second, decide_true, decide_false,
          Bool.false_eq_true, if_true, if_false, List.filter_nil] at found
        match i, found with
        | 0, found => exact Option.some.inj found ▸ rfl
      · simp only [List.filter_cons, first, second, decide_false, Bool.false_eq_true, if_false,
          List.filter_nil, List.map_nil, List.getElem?_nil, reduceCtorEq] at found
  obtain ⟨calls, done, equal⟩ := preserves 2 (by decide) _ alternates (by decide)
  have run : ingestionTest Library.sample 2 ([⟨1, 2, 0⟩, ⟨1, 2, 1⟩, ⟨3, 4, 0⟩].map some) =
      some [.removeEdge 1 2, .addEdgeBatch [(1, 2), (3, 4)]] := by decide +kernel
  cases Option.some.inj (run.symm.trans done)
  exact absurd equal (by decide +kernel)

end Final

end Zeppelin.Driver.Terrace
