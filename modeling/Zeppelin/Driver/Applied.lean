import Zeppelin.Driver.Aspen
import Zeppelin.Driver.Terrace
import Zeppelin.Stream.Truncated

/-! What the ingestion loops apply. Both call `get_edge` once in each of
`num_edges` iterations and do not look at its result; a call that returns false
leaves the update of the iteration before, which is then applied again. -/
namespace Zeppelin.Driver

open Zeppelin.Stream BufferedEdgeInput

/-- The value of `update` in each iteration, given what `get_edge` returned. -/
def applied (update : Edge) : List (Option Edge) → List Edge
  | [] => []
  | result :: results => result.getD update :: applied (result.getD update) results

section Loops

theorem applied_length (update : Edge) (results : List (Option Edge)) :
    (applied update results).length = results.length := by
  induction results generalizing update with
  | nil => rfl
  | cons result results ih => rw [applied, List.length_cons, List.length_cons, ih]

theorem applied_map_some (update : Edge) (stream : List Edge) :
    applied update (stream.map some) = stream := by
  induction stream generalizing update with
  | nil => rfl
  | cons e rest ih => rw [List.map_cons, applied, Option.getD_some, ih]

variable {S : Type} {step : S → Option Edge → Option S} {update : S → Edge}

/-- A loop that keeps its last update and takes it for a missing one does what it
does on the applied updates. -/
theorem run_applied (resolves : ∀ s result, step s result = step s (some (result.getD (update s))))
    (keeps : ∀ {s e t}, step s (some e) = some t → update t = e) (s : S)
    (results : List (Option Edge)) :
    Run.run step s results = Run.run step s ((applied (update s) results).map some) := by
  induction results generalizing s with
  | nil => rfl
  | cons result results ih =>
    rw [applied, List.map_cons, Run.run_cons, Run.run_cons, resolves]
    cases first : step s (some (result.getD (update s))) with
    | none => rfl
    | some t => rw [Option.bind_some, Option.bind_some, ih, keeps first]

/-- Aspen's loop hands over what it would hand over for the applied updates. -/
theorem Aspen.ingestionTest_applied (sortUpdates : Aspen.SortUpdates)
    (returns : List Aspen.Call → List Aspen.Arc → Bool) (updateBatchSize : Nat)
    (results : List (Option Edge)) :
    Aspen.ingestionTest sortUpdates returns updateBatchSize results =
      Aspen.ingestionTest sortUpdates returns updateBatchSize
        ((applied ⟨0, 0, 0⟩ results).map some) := by
  have keeps : ∀ {s : Aspen.State} {e t}, s.step sortUpdates updateBatchSize (some e) = some t →
      t.update = e := by
    intro s e t done
    simp only [Aspen.State.step, Option.getD_some] at done
    split at done
    · obtain ⟨_, -, rfl⟩ := Option.map_eq_some_iff.mp done
      rfl
    · obtain ⟨_, -, rfl⟩ := Option.map_eq_some_iff.mp done
      rfl
  have same := run_applied (fun _ _ => rfl) keeps (Aspen.init updateBatchSize) results
  rw [Aspen.ingestionTest, same]
  rfl

/-- Terrace's loop hands over what it would hand over for the applied updates. -/
theorem Terrace.ingestionTest_applied (library : Terrace.Library) (updateBatchSize : Nat)
    (results : List (Option Edge)) :
    Terrace.ingestionTest library updateBatchSize results =
      Terrace.ingestionTest library updateBatchSize ((applied ⟨0, 0, 0⟩ results).map some) := by
  have keeps : ∀ {s : Terrace.State} {e t}, s.step library updateBatchSize (some e) = some t →
      t.update = e := by
    intro s e t done
    simp only [Terrace.State.step, Option.getD_some] at done
    split at done
    · cases Option.some.inj done
      rfl
    · simp only [Terrace.State.insert] at done
      split at done
      · split at done
        · split at done
          · cases Option.some.inj done
            rfl
          · contradiction
        · cases Option.some.inj done
          rfl
      · contradiction
  have same := run_applied (fun _ _ => rfl) keeps (Terrace.init updateBatchSize) results
  rw [Terrace.ingestionTest, same]
  rfl

end Loops

section Files

/-- In every interleaving, the loops apply the whole records of the file, up to
the number in the header, exactly when the header does not promise more. -/
theorem applied_records_iff {bufferSize : Nat} (positive : 1 ≤ bufferSize)
    {header body : List UInt8} (hheader : header.length = 12) {schedule : List Turn}
    {s : BufferedEdgeInput}
    (reached : Run.run (step bufferSize) (new bufferSize (header ++ body)) schedule = some s)
    (finished : s.results.length = (new bufferSize (header ++ body)).numEdges.toNat) :
    let numEdges := (new bufferSize (header ++ body)).numEdges.toNat
    (∀ sortUpdates returns updateBatchSize,
      Aspen.ingestionTest sortUpdates returns updateBatchSize s.results =
        Aspen.ingestionTest sortUpdates returns updateBatchSize
          ((applied ⟨0, 0, 0⟩ s.results).map some)) ∧
    (∀ library updateBatchSize, Terrace.ingestionTest library updateBatchSize s.results =
      Terrace.ingestionTest library updateBatchSize ((applied ⟨0, 0, 0⟩ s.results).map some)) ∧
    (applied ⟨0, 0, 0⟩ s.results = (records body).take (min numEdges (records body).length) ↔
      numEdges ≤ (records body).length) := by
  refine ⟨fun _ _ _ => Aspen.ingestionTest_applied _ _ _ _, fun _ _ => Terrace.ingestionTest_applied _ _ _,
    ?_, ?_⟩
  · intro same
    have length := congrArg List.length same
    rw [applied_length, finished, List.length_take] at length
    omega
  · intro few
    rw [← finished] at few ⊢
    have results := first_records positive hheader reached few
    rw [Nat.min_eq_left few]
    conv_lhs => rw [results]
    exact applied_map_some _ _

/-- A header for a number of edges below 256. -/
def sampleHeader (numEdges : UInt8) : List UInt8 := [0, 0, 0, 0, numEdges, 0, 0, 0, 0, 0, 0, 0]

/-- The reader fills a buffer of one edge and waits, and `get_edge` is called once. -/
def sampleCall : List Turn :=
  [.reader 0 0, .reader 0 0, .reader 0 0, .consumer, .consumer, .consumer, .consumer, .consumer]

/-- The reader and the consumer take turns over two buffers. -/
def sampleCalls : List Turn :=
  List.replicate 3 (.reader 0 0) ++ List.replicate 4 .consumer ++ List.replicate 4 (.reader 0 0) ++
    List.replicate 5 .consumer ++ List.replicate 4 (.reader 0 0) ++ [.consumer]

/-- An insertion, a deletion and one record more than the header says. -/
def sampleRecords : List UInt8 :=
  [0, 1, 0, 0, 0, 2, 0, 0, 0, 1, 3, 0, 0, 0, 4, 0, 0, 0, 0, 5, 0, 0, 0, 6, 0, 0, 0]

/-- The header says two, and the first two of the three records are applied. -/
theorem applied_records_whole :
    ∃ s, Run.run (step 1) (new 1 (sampleHeader 2 ++ sampleRecords)) sampleCalls = some s ∧
      applied ⟨0, 0, 0⟩ s.results = [⟨1, 2, 0⟩, ⟨3, 4, 1⟩] := by
  have returned : (Run.run (step 1) (new 1 (sampleHeader 2 ++ sampleRecords)) sampleCalls).map
      results = some [some ⟨1, 2, 0⟩, some ⟨3, 4, 1⟩] := by decide +kernel
  obtain ⟨s, reached, same⟩ := Option.map_eq_some_iff.mp returned
  have finished : s.results.length =
      (new 1 (sampleHeader 2 ++ sampleRecords)).numEdges.toNat := by
    rw [same]
    decide +kernel
  have equal := (applied_records_iff (by decide) (by decide) reached finished).2.2.mpr
    (by decide +kernel)
  exact ⟨s, reached, equal.trans (by decide +kernel)⟩

/-- A file of one record whose header says two: the record is applied twice. -/
theorem applied_records_repeated :
    ¬∀ bufferSize ≥ 1, ∀ header body : List UInt8, header.length = 12 → ∀ schedule s,
      Run.run (step bufferSize) (new bufferSize (header ++ body)) schedule = some s →
      s.results.length = (new bufferSize (header ++ body)).numEdges.toNat →
      applied ⟨0, 0, 0⟩ s.results = (records body).take
        (min (new bufferSize (header ++ body)).numEdges.toNat (records body).length) := by
  intro only
  have returned : (Run.run (step 1) (new 1 (sampleHeader 2 ++ [0, 1, 0, 0, 0, 2, 0, 0, 0]))
      (sampleCall ++ sampleCall)).map results = some [some ⟨1, 2, 0⟩, none] := by decide +kernel
  obtain ⟨s, reached, same⟩ := Option.map_eq_some_iff.mp returned
  have finished : s.results.length =
      (new 1 (sampleHeader 2 ++ [0, 1, 0, 0, 0, 2, 0, 0, 0])).numEdges.toNat := by
    rw [same]
    decide +kernel
  have equal := only 1 (by decide) (sampleHeader 2) [0, 1, 0, 0, 0, 2, 0, 0, 0] (by decide)
    (sampleCall ++ sampleCall) s reached finished
  rw [same] at equal
  exact absurd equal (by decide +kernel)

end Files

end Zeppelin.Driver
