import Zeppelin.Machine.Delivery
import Zeppelin.Machine.Run
import Zeppelin.Stream.EdgeFile
import Mathlib.Logic.Function.Basic

/-! `BufferedEdgeInput.h`, the same text in both comparison systems. The reader
thread runs `ingest`, one consumer calls `get_edge`, and two buffers change
hands through `swapWaiting`, `endOfFile` and one condition variable. A locked
section with its wait is one step; so is each access to a buffer outside the
lock. A waiting thread sleeps until a notification or a spurious wake-up lets it
test its condition again. Every interleaving is a schedule of turns. -/
namespace Zeppelin.Stream

open Delivery

/-- Where `ingest` stands. -/
inductive ReaderPc where
  | filling (i : Nat)
  | ending
  | publishing
  | asleep
  | woken
  | done
  deriving DecidableEq

/-- Where `get_edge` stands; `idle` is between two calls. -/
inductive ConsumerPc where
  | idle
  | clearing
  | locking
  | asleep
  | notifying
  | fetching
  deriving DecidableEq

structure BufferedEdgeInput where
  numNodes : UInt32
  numEdges : UInt64
  stream : IStream
  buffers : Fin 2 → List Edge
  readBuffer : Fin 2
  writeBuffer : Fin 2
  currentElement : Nat
  swapWaiting : Bool
  endOfFile : Bool
  reader : ReaderPc
  consumer : ConsumerPc
  results : List (Option Edge)

inductive Turn where
  | reader (srcVertex dstVertex : UInt32)
  | consumer
  | wakeReader
  | wakeConsumer

namespace BufferedEdgeInput

/-- The constructor reads the header and starts the reader thread. -/
def new (bufferSize : Nat) (file : List UInt8) : BufferedEdgeInput :=
  let (numNodes, stream) := IStream.readOver ⟨file, true⟩ 4 0
  let (numEdges, stream) := stream.readOver 8 0
  { numNodes := UInt32.ofNat numNodes
    numEdges := UInt64.ofNat numEdges
    stream := stream
    buffers := fun _ => []
    readBuffer := 0
    writeBuffer := 1
    currentElement := bufferSize
    swapWaiting := false
    endOfFile := false
    reader := .filling 0
    consumer := .idle
    results := [] }

def reading (s : BufferedEdgeInput) : List Edge := s.buffers s.readBuffer
def writing (s : BufferedEdgeInput) : List Edge := s.buffers s.writeBuffer

def setReading (s : BufferedEdgeInput) (content : List Edge) : BufferedEdgeInput :=
  { s with buffers := Function.update s.buffers s.readBuffer content }

def setWriting (s : BufferedEdgeInput) (content : List Edge) : BufferedEdgeInput :=
  { s with buffers := Function.update s.buffers s.writeBuffer content }

/-- `notify_all` on the one condition variable. -/
def notifyAll (s : BufferedEdgeInput) : BufferedEdgeInput :=
  { s with
    reader := if s.reader = .asleep then .woken else s.reader
    consumer := if s.consumer = .asleep then .locking else s.consumer }

/-- The next step of `ingest`. The wait after a full buffer finds its condition
false, since the same locked section set `swapWaiting`. -/
def ingest (bufferSize : Nat) (srcVertex dstVertex : UInt32) (s : BufferedEdgeInput) :
    Option BufferedEdgeInput :=
  match s.reader with
  | .filling i =>
    if i < bufferSize then
      match s.stream.readRecord srcVertex dstVertex with
      | (none, stream) => some { s with stream := stream, reader := .ending }
      | (some edge, stream) =>
        some { s.setWriting (s.writing ++ [edge]) with stream := stream, reader := .filling (i + 1) }
    else some { s with reader := .publishing }
  | .ending => some { ({ s with swapWaiting := true, endOfFile := true }).notifyAll with reader := .done }
  | .publishing => some { ({ s with swapWaiting := true }).notifyAll with reader := .asleep }
  | .woken => some { s with reader := if s.swapWaiting then .asleep else .filling 0 }
  | .asleep => none
  | .done => none

/-- The next step of `get_edge`; an idle consumer starts another call. -/
def getEdge (s : BufferedEdgeInput) : Option BufferedEdgeInput :=
  match s.consumer with
  | .idle =>
    some { s with consumer := if s.reading.length ≤ s.currentElement then .clearing else .fetching }
  | .clearing => some { s.setReading [] with consumer := .locking }
  | .locking =>
    if s.swapWaiting || s.endOfFile then
      some { s with
        readBuffer := s.writeBuffer
        writeBuffer := s.readBuffer
        currentElement := 0
        swapWaiting := false
        consumer := .notifying }
    else some { s with consumer := .asleep }
  | .notifying => some { s.notifyAll with consumer := .fetching }
  | .fetching =>
    match s.reading[s.currentElement]? with
    | some edge =>
      some { s with
        currentElement := s.currentElement + 1
        results := s.results ++ [some edge]
        consumer := .idle }
    | none => some { s with results := s.results ++ [none], consumer := .idle }
  | .asleep => none

def step (bufferSize : Nat) (s : BufferedEdgeInput) : Turn → Option BufferedEdgeInput
  | .reader srcVertex dstVertex => s.ingest bufferSize srcVertex dstVertex
  | .consumer => s.getEdge
  | .wakeReader => if s.reader = .asleep then some { s with reader := .woken } else none
  | .wakeConsumer => if s.consumer = .asleep then some { s with consumer := .locking } else none

section Invariant

/-- What the reader knows at each point. Outside the locked sections it holds
the write buffer alone, because neither flag is set. -/
def ReaderOk (bufferSize : Nat) (s : BufferedEdgeInput) : Prop :=
  match s.reader with
  | .filling i => s.writing.length = i ∧ i ≤ bufferSize ∧ s.swapWaiting = false ∧
      s.endOfFile = false ∧ s.stream.good = true
  | .publishing => s.writing.length = bufferSize ∧ s.swapWaiting = false ∧ s.endOfFile = false ∧
      s.stream.good = true
  | .ending => s.stream.rest = [] ∧ s.swapWaiting = false ∧ s.endOfFile = false
  | .asleep => s.endOfFile = false ∧ s.stream.good = true ∧
      (s.swapWaiting = true ∧ s.writing.length = bufferSize ∨
        s.swapWaiting = false ∧ s.writing = [] ∧ s.consumer = .notifying)
  | .woken => s.endOfFile = false ∧ s.stream.good = true ∧
      (s.swapWaiting = true ∧ s.writing.length = bufferSize ∨
        s.swapWaiting = false ∧ s.writing = [])
  | .done => s.endOfFile = true ∧ s.stream.rest = []

/-- What the consumer knows at each point. -/
def ConsumerOk (s : BufferedEdgeInput) : Prop :=
  match s.consumer with
  | .idle => True
  | .clearing => s.reading.length ≤ s.currentElement
  | .locking => s.reading = []
  | .asleep => s.reading = [] ∧ s.swapWaiting = false ∧ s.endOfFile = false
  | .notifying | .fetching =>
    s.reading.length ≤ s.currentElement → s.endOfFile = true ∧ s.writing = []

/-- The invariant: the returned edges, the rest of the read buffer, the write
buffer and the unread records are the records of the file. -/
structure Inv (bufferSize : Nat) (items : List Edge) (s : BufferedEdgeInput) : Prop where
  distinct : s.readBuffer ≠ s.writeBuffer
  aligned : ∃ k, s.stream.rest.length = 9 * k
  conserved : s.results.reduceOption ++ (s.reading.drop s.currentElement ++
    (s.writing ++ records s.stream.rest)) = items
  delivered : Delivered items s.results
  readerOk : ReaderOk bufferSize s
  consumerOk : ConsumerOk s

end Invariant

section Frames

variable {bufferSize : Nat} {s t : BufferedEdgeInput}

theorem setWriting_writing (s : BufferedEdgeInput) (content : List Edge) :
    (s.setWriting content).writing = content := Function.update_self _ _ _

theorem setWriting_reading (distinct : s.readBuffer ≠ s.writeBuffer) (content : List Edge) :
    (s.setWriting content).reading = s.reading := Function.update_of_ne distinct _ _

theorem setReading_reading (s : BufferedEdgeInput) (content : List Edge) :
    (s.setReading content).reading = content := Function.update_self _ _ _

theorem setReading_writing (distinct : s.readBuffer ≠ s.writeBuffer) (content : List Edge) :
    (s.setReading content).writing = s.writing := Function.update_of_ne distinct.symm _ _

/-- What the consumer knows is about its own buffer and the flags, and about the
write buffer only once the file has ended. -/
theorem ConsumerOk.frame (ok : ConsumerOk s) (pc : t.consumer = s.consumer)
    (reading : t.reading = s.reading) (current : t.currentElement = s.currentElement)
    (waiting : t.swapWaiting = s.swapWaiting) (eof : t.endOfFile = s.endOfFile)
    (writing : s.endOfFile = true → t.writing = s.writing) : ConsumerOk t := by
  rw [ConsumerOk] at ok ⊢
  rw [pc]
  cases here : s.consumer with
  | idle => trivial
  | clearing => simpa only [here, reading, current] using ok
  | locking => simpa only [here, reading] using ok
  | asleep => simpa only [here, reading, waiting, eof] using ok
  | notifying | fetching =>
    simp only [here] at ok
    simp only [reading, current, eof]
    exact fun exhausted => ⟨(ok exhausted).1, (writing (ok exhausted).1).trans (ok exhausted).2⟩

/-- What the reader knows does not depend on a consumer that is not about to
notify it. -/
theorem ReaderOk.frame (ok : ReaderOk bufferSize s) (pc : t.reader = s.reader)
    (writing : t.writing = s.writing) (waiting : t.swapWaiting = s.swapWaiting)
    (eof : t.endOfFile = s.endOfFile) (stream : t.stream = s.stream)
    (quiet : s.consumer ≠ .notifying) : ReaderOk bufferSize t := by
  rw [ReaderOk] at ok ⊢
  rw [pc, writing, waiting, eof, stream]
  cases here : s.reader with
  | filling | publishing | ending | woken | done => simpa only [here] using ok
  | asleep =>
    simp only [here] at ok
    obtain ⟨running, good, full | ⟨-, -, notifying⟩⟩ := ok
    · exact ⟨running, good, Or.inl full⟩
    · exact absurd notifying quiet

end Frames

section Reader

variable {bufferSize : Nat} {items : List Edge} {s t : BufferedEdgeInput}
  {srcVertex dstVertex : UInt32}

/-- One iteration of the loop, or its end, keeps the invariant. -/
theorem filling_inv (inv : Inv bufferSize items s) {i : Nat} (pc : s.reader = .filling i)
    (done : s.ingest bufferSize srcVertex dstVertex = some t) : Inv bufferSize items t := by
  obtain ⟨distinct, ⟨k, size⟩, conserved, delivered, readerOk, consumerOk⟩ := inv
  simp only [ReaderOk, pc] at readerOk
  obtain ⟨filled, bound, idle, running, good⟩ := readerOk
  simp only [ingest, pc] at done
  split at done
  · cases k with
    | zero =>
      have empty : s.stream.rest = [] := List.eq_nil_of_length_eq_zero size
      obtain ⟨next, read, ended⟩ := readRecord_none empty srcVertex dstVertex
      rw [read] at done
      cases Option.some.inj done
      refine ⟨distinct, ⟨0, by rw [ended]; rfl⟩, ?_, delivered, ⟨ended, idle, running⟩,
        consumerOk.frame rfl rfl rfl rfl rfl fun _ => rfl⟩
      rw [empty] at conserved
      simp only [ended]
      exact conserved
    | succ k =>
      obtain ⟨edge, next, read, still, left, split⟩ := readRecord_some good size srcVertex dstVertex
      rw [read] at done
      cases Option.some.inj done
      have reads := setWriting_reading distinct (s.writing ++ [edge])
      have writes := setWriting_writing s (s.writing ++ [edge])
      refine ⟨distinct, ⟨k, left⟩, ?_, delivered, ⟨?_, by omega, idle, running, still⟩,
        consumerOk.frame rfl reads rfl rfl rfl fun ended => ?_⟩
      · change s.results.reduceOption ++
          ((s.setWriting (s.writing ++ [edge])).reading.drop s.currentElement ++
            ((s.setWriting (s.writing ++ [edge])).writing ++ records next.rest)) = items
        rw [reads, writes, ← conserved, split]
        simp only [List.append_assoc, List.singleton_append]
      · change (s.setWriting (s.writing ++ [edge])).writing.length = i + 1
        rw [writes, List.length_append, filled, List.length_singleton]
      · rw [running] at ended
        contradiction
  · cases Option.some.inj done
    exact ⟨distinct, ⟨k, size⟩, conserved, delivered,
      ⟨filled.trans (by omega), idle, running, good⟩,
      consumerOk.frame rfl rfl rfl rfl rfl fun _ => rfl⟩

/-- A notification wakes a sleeping consumer and nothing else of it changes. -/
theorem notified_consumerOk (ok : ConsumerOk s) (running : s.endOfFile = false)
    (pc : t.consumer = if s.consumer = .asleep then .locking else s.consumer)
    (reading : t.reading = s.reading) (current : t.currentElement = s.currentElement) :
    ConsumerOk t := by
  rw [ConsumerOk] at ok ⊢
  rw [pc]
  cases here : s.consumer with
  | idle => trivial
  | clearing =>
    simp only [here] at ok
    simpa only [reduceCtorEq, if_false, reading, current] using ok
  | locking =>
    simp only [here] at ok
    simpa only [reduceCtorEq, if_false, reading] using ok
  | asleep =>
    simp only [here] at ok
    simpa only [if_true, reading] using ok.1
  | notifying | fetching =>
    simp only [here, running, Bool.false_eq_true, false_and, imp_false] at ok
    simp only [reduceCtorEq, if_false, reading, current]
    exact fun exhausted => absurd exhausted ok

theorem ingest_inv (inv : Inv bufferSize items s)
    (done : s.ingest bufferSize srcVertex dstVertex = some t) : Inv bufferSize items t := by
  cases pc : s.reader with
  | filling i => exact filling_inv inv pc done
  | ending =>
    obtain ⟨distinct, aligned, conserved, delivered, readerOk, consumerOk⟩ := inv
    simp only [ReaderOk, pc] at readerOk
    obtain ⟨empty, idle, running⟩ := readerOk
    simp only [ingest, pc] at done
    cases Option.some.inj done
    exact ⟨distinct, aligned, conserved, delivered, ⟨rfl, empty⟩,
      notified_consumerOk consumerOk running rfl rfl rfl⟩
  | publishing =>
    obtain ⟨distinct, aligned, conserved, delivered, readerOk, consumerOk⟩ := inv
    simp only [ReaderOk, pc] at readerOk
    obtain ⟨full, idle, running, good⟩ := readerOk
    simp only [ingest, pc] at done
    cases Option.some.inj done
    exact ⟨distinct, aligned, conserved, delivered, ⟨running, good, Or.inl ⟨rfl, full⟩⟩,
      notified_consumerOk consumerOk running rfl rfl rfl⟩
  | woken =>
    obtain ⟨distinct, aligned, conserved, delivered, readerOk, consumerOk⟩ := inv
    simp only [ReaderOk, pc] at readerOk
    obtain ⟨running, good, waits⟩ := readerOk
    simp only [ingest, pc] at done
    cases Option.some.inj done
    refine ⟨distinct, aligned, conserved, delivered, ?_,
      consumerOk.frame rfl rfl rfl rfl rfl fun _ => rfl⟩
    rcases waits with ⟨waiting, full⟩ | ⟨swapped, empty⟩
    · simp only [ReaderOk, waiting, if_true]
      exact ⟨running, good, Or.inl ⟨trivial, full⟩⟩
    · simp only [ReaderOk, swapped, Bool.false_eq_true, if_false]
      exact ⟨congrArg List.length empty, Nat.zero_le _, trivial, running, good⟩
  | asleep => simp only [ingest, pc, reduceCtorEq] at done
  | done => simp only [ingest, pc, reduceCtorEq] at done

end Reader

section Consumer

variable {bufferSize : Nat} {items : List Edge} {s t : BufferedEdgeInput}

/-- While a flag is set the reader has finished, or it waits with a full buffer. -/
theorem flagged_reader (ok : ReaderOk bufferSize s)
    (flagged : (s.swapWaiting || s.endOfFile) = true) :
    (s.reader = .done ∧ s.endOfFile = true ∧ s.stream.rest = []) ∨
      ((s.reader = .asleep ∨ s.reader = .woken) ∧ s.endOfFile = false ∧ s.stream.good = true ∧
        s.writing.length = bufferSize) := by
  rw [ReaderOk] at ok
  cases pc : s.reader with
  | filling i =>
    simp only [pc] at ok
    simp [ok.2.2.1, ok.2.2.2.1] at flagged
  | publishing =>
    simp only [pc] at ok
    simp [ok.2.1, ok.2.2.1] at flagged
  | ending =>
    simp only [pc] at ok
    simp [ok.2.1, ok.2.2] at flagged
  | asleep =>
    simp only [pc] at ok
    obtain ⟨running, good, ⟨-, full⟩ | ⟨idle, -, -⟩⟩ := ok
    · exact Or.inr ⟨Or.inl rfl, running, good, full⟩
    · simp [running, idle] at flagged
  | woken =>
    simp only [pc] at ok
    obtain ⟨running, good, ⟨-, full⟩ | ⟨idle, -⟩⟩ := ok
    · exact Or.inr ⟨Or.inr rfl, running, good, full⟩
    · simp [running, idle] at flagged
  | done =>
    simp only [pc] at ok
    exact Or.inl ⟨rfl, ok⟩

theorem idle_inv (inv : Inv bufferSize items s) (pc : s.consumer = .idle)
    (done : s.getEdge = some t) : Inv bufferSize items t := by
  obtain ⟨distinct, aligned, conserved, delivered, readerOk, -⟩ := inv
  simp only [getEdge, pc] at done
  cases Option.some.inj done
  refine ⟨distinct, aligned, conserved, delivered,
    readerOk.frame rfl rfl rfl rfl rfl (by simp [pc]), ?_⟩
  by_cases exhausted : s.reading.length ≤ s.currentElement
  · simp only [ConsumerOk, if_pos exhausted]
    exact exhausted
  · simp only [ConsumerOk, if_neg exhausted]
    exact fun contrary => absurd contrary exhausted

theorem clearing_inv (inv : Inv bufferSize items s) (pc : s.consumer = .clearing)
    (done : s.getEdge = some t) : Inv bufferSize items t := by
  obtain ⟨distinct, aligned, conserved, delivered, readerOk, consumerOk⟩ := inv
  simp only [ConsumerOk, pc] at consumerOk
  simp only [getEdge, pc] at done
  cases Option.some.inj done
  have reads := setReading_reading s []
  have writes := setReading_writing distinct []
  refine ⟨distinct, aligned, ?_, delivered,
    readerOk.frame rfl writes rfl rfl rfl (by simp [pc]), reads⟩
  change s.results.reduceOption ++ ((s.setReading []).reading.drop s.currentElement ++
    ((s.setReading []).writing ++ records s.stream.rest)) = items
  rw [reads, writes, ← conserved, List.drop_eq_nil_of_le consumerOk, List.drop_nil]

/-- The swap passes a full buffer or the last one to the consumer, and an empty
one back. -/
theorem locking_inv (positive : 1 ≤ bufferSize) (inv : Inv bufferSize items s)
    (pc : s.consumer = .locking) (done : s.getEdge = some t) : Inv bufferSize items t := by
  obtain ⟨distinct, aligned, conserved, delivered, readerOk, consumerOk⟩ := inv
  simp only [ConsumerOk, pc] at consumerOk
  simp only [getEdge, pc] at done
  split at done
  · rename_i flagged
    cases Option.some.inj done
    have balance : s.results.reduceOption ++ (s.writing.drop 0 ++
        (s.reading ++ records s.stream.rest)) = items := by
      rw [consumerOk, List.drop_nil] at conserved
      rw [consumerOk]
      exact conserved
    rcases flagged_reader readerOk flagged with ⟨reader, ended, empty⟩ |
      ⟨reader, running, good, full⟩
    · refine ⟨distinct.symm, aligned, balance, delivered, ?_, fun _ => ⟨ended, consumerOk⟩⟩
      simp only [ReaderOk, reader]
      exact ⟨ended, empty⟩
    · refine ⟨distinct.symm, aligned, balance, delivered, ?_, fun exhausted => ?_⟩
      · rcases reader with reader | reader
        · simp only [ReaderOk, reader]
          exact ⟨running, good, Or.inr ⟨trivial, consumerOk, trivial⟩⟩
        · simp only [ReaderOk, reader]
          exact ⟨running, good, Or.inr ⟨trivial, consumerOk⟩⟩
      · change s.writing.length ≤ 0 at exhausted
        omega
  · rename_i unflagged
    cases Option.some.inj done
    simp only [Bool.or_eq_true, not_or, Bool.not_eq_true] at unflagged
    exact ⟨distinct, aligned, conserved, delivered,
      readerOk.frame rfl rfl rfl rfl rfl (by simp [pc]), ⟨consumerOk, unflagged⟩⟩

theorem notifying_inv (inv : Inv bufferSize items s) (pc : s.consumer = .notifying)
    (done : s.getEdge = some t) : Inv bufferSize items t := by
  obtain ⟨distinct, aligned, conserved, delivered, readerOk, consumerOk⟩ := inv
  simp only [ConsumerOk, pc] at consumerOk
  simp only [getEdge, pc] at done
  cases Option.some.inj done
  refine ⟨distinct, aligned, conserved, delivered, ?_, consumerOk⟩
  rw [ReaderOk] at readerOk ⊢
  cases reader : s.reader with
  | asleep =>
    simp only [reader] at readerOk
    simp only [notifyAll, reader, if_true]
    obtain ⟨running, good, full | ⟨swapped, empty, -⟩⟩ := readerOk
    · exact ⟨running, good, Or.inl full⟩
    · exact ⟨running, good, Or.inr ⟨swapped, empty⟩⟩
  | filling | publishing | ending | woken | done =>
    simp only [reader] at readerOk
    simp only [notifyAll, reader, reduceCtorEq, if_false]
    exact readerOk

theorem fetching_inv (inv : Inv bufferSize items s) (pc : s.consumer = .fetching)
    (done : s.getEdge = some t) : Inv bufferSize items t := by
  obtain ⟨distinct, aligned, conserved, delivered, readerOk, consumerOk⟩ := inv
  simp only [ConsumerOk, pc] at consumerOk
  simp only [getEdge, pc] at done
  have quiet : s.consumer ≠ .notifying := by simp [pc]
  cases found : s.reading[s.currentElement]? with
  | some edge =>
    rw [found] at done
    cases Option.some.inj done
    obtain ⟨within, stored⟩ := List.getElem?_eq_some_iff.mp found
    rw [List.drop_eq_getElem_cons within, stored, List.cons_append] at conserved
    refine ⟨distinct, aligned, ?_, delivered.item conserved,
      readerOk.frame rfl rfl rfl rfl rfl quiet, trivial⟩
    rw [← conserved, List.reduceOption_append, List.append_assoc]
    rfl
  | none =>
    rw [found] at done
    cases Option.some.inj done
    have exhausted := List.getElem?_eq_none_iff.mp found
    obtain ⟨ended, empty⟩ := consumerOk exhausted
    have complete : s.results.reduceOption = items := by
      rcases flagged_reader readerOk (by simp [ended]) with ⟨-, -, rest⟩ | ⟨-, running, -⟩
      · rw [List.drop_eq_nil_of_le exhausted, empty, rest] at conserved
        simpa [records] using conserved
      · rw [ended] at running
        contradiction
    refine ⟨distinct, aligned, ?_, delivered.finish complete,
      readerOk.frame rfl rfl rfl rfl rfl quiet, trivial⟩
    rw [← conserved, List.reduceOption_append, List.append_assoc]
    rfl

theorem getEdge_inv (positive : 1 ≤ bufferSize) (inv : Inv bufferSize items s)
    (done : s.getEdge = some t) : Inv bufferSize items t := by
  cases pc : s.consumer with
  | idle => exact idle_inv inv pc done
  | clearing => exact clearing_inv inv pc done
  | locking => exact locking_inv positive inv pc done
  | notifying => exact notifying_inv inv pc done
  | fetching => exact fetching_inv inv pc done
  | asleep => simp only [getEdge, pc, reduceCtorEq] at done

end Consumer

section Runs

variable {bufferSize : Nat} {items : List Edge} {s t : BufferedEdgeInput}

theorem step_inv (positive : 1 ≤ bufferSize) {turn : Turn} (inv : Inv bufferSize items s)
    (done : s.step bufferSize turn = some t) : Inv bufferSize items t := by
  cases turn with
  | reader srcVertex dstVertex => exact ingest_inv inv done
  | consumer => exact getEdge_inv positive inv done
  | wakeReader =>
    simp only [step, Option.ite_none_right_eq_some, Option.some.injEq] at done
    obtain ⟨pc, rfl⟩ := done
    obtain ⟨distinct, aligned, conserved, delivered, readerOk, consumerOk⟩ := inv
    simp only [ReaderOk, pc] at readerOk
    refine ⟨distinct, aligned, conserved, delivered, ?_,
      consumerOk.frame rfl rfl rfl rfl rfl fun _ => rfl⟩
    obtain ⟨running, good, full | ⟨swapped, empty, -⟩⟩ := readerOk
    · exact ⟨running, good, Or.inl full⟩
    · exact ⟨running, good, Or.inr ⟨swapped, empty⟩⟩
  | wakeConsumer =>
    simp only [step, Option.ite_none_right_eq_some, Option.some.injEq] at done
    obtain ⟨pc, rfl⟩ := done
    obtain ⟨distinct, aligned, conserved, delivered, readerOk, consumerOk⟩ := inv
    simp only [ConsumerOk, pc] at consumerOk
    exact ⟨distinct, aligned, conserved, delivered,
      readerOk.frame rfl rfl rfl rfl rfl (by simp [pc]), consumerOk.1⟩

/-- The constructor reads the header and leaves what is behind it. -/
theorem new_eq (bufferSize : Nat) {header : List UInt8} (size : header.length = 12)
    (body : List UInt8) :
    new bufferSize (header ++ body) =
      { numNodes := UInt32.ofNat (fromLittleEndian (header.take 4))
        numEdges := UInt64.ofNat (fromLittleEndian (header.drop 4))
        stream := ⟨body, true⟩
        buffers := fun _ => []
        readBuffer := 0
        writeBuffer := 1
        currentElement := bufferSize
        swapWaiting := false
        endOfFile := false
        reader := .filling 0
        consumer := .idle
        results := [] } := by
  have front : (header.take 4).length = 4 := by
    rw [List.length_take]
    omega
  have back : (header.drop 4).length = 8 := by
    rw [List.length_drop]
    omega
  have nodes := readOver_enough front (header.drop 4 ++ body) 0
  have edges := readOver_enough back body 0
  rw [← List.append_assoc, List.take_append_drop] at nodes
  simp only [new, nodes, edges]

theorem new_stream (bufferSize : Nat) {header : List UInt8} (body : List UInt8)
    (size : header.length = 12) : (new bufferSize (header ++ body)).stream = ⟨body, true⟩ := by
  rw [new_eq bufferSize size]

theorem new_inv (bufferSize : Nat) {header body : List UInt8} {k : Nat}
    (hheader : header.length = 12) (hbody : body.length = 9 * k) :
    Inv bufferSize (records body) (new bufferSize (header ++ body)) := by
  have stream := new_stream bufferSize body hheader
  refine ⟨show (0 : Fin 2) ≠ 1 by decide, ⟨k, by rw [stream]; exact hbody⟩, ?_, delivered_nil _,
    ⟨rfl, Nat.zero_le _, rfl, rfl, by rw [stream]⟩, trivial⟩
  rw [stream]
  simp [new, reading, writing]

/-- The consumer is at the swap and may pass its wait. -/
def Swaps (s : BufferedEdgeInput) : Prop :=
  s.consumer = .locking ∧ (s.swapWaiting || s.endOfFile) = true

/-- Safety over every interleaving: the records are delivered in order, the
threads hold different buffers and a swap happens only while the reader waits or
has finished, and a sleeping consumer always has a reader that goes on. -/
theorem delivers_every_record (positive : 1 ≤ bufferSize) {header body : List UInt8} {k : Nat}
    (hheader : header.length = 12) (hbody : body.length = 9 * k) {schedule : List Turn}
    (reached : Run.run (step bufferSize) (new bufferSize (header ++ body)) schedule = some s) :
    (records body).length = k ∧ Delivered (records body) s.results ∧
      s.readBuffer ≠ s.writeBuffer ∧
      (Swaps s → s.reader = .asleep ∨ s.reader = .woken ∨ s.reader = .done) ∧
      ¬(s.consumer = .asleep ∧ (s.reader = .asleep ∨ s.reader = .done)) := by
  have inv : Inv bufferSize (records body) s :=
    Run.run_invariant (step_inv positive) (new_inv bufferSize hheader hbody) reached
  refine ⟨records_length hbody, inv.delivered, inv.distinct, ?_, ?_⟩
  · rintro ⟨-, flagged⟩
    rcases flagged_reader inv.readerOk flagged with ⟨reader, -⟩ | ⟨reader | reader, -⟩
    · exact Or.inr (Or.inr reader)
    · exact Or.inl reader
    · exact Or.inr (Or.inl reader)
  · rintro ⟨consumer, reader⟩
    have consumerOk := inv.consumerOk
    have readerOk := inv.readerOk
    simp only [ConsumerOk, consumer] at consumerOk
    rcases reader with reader | reader
    · simp [ReaderOk, reader, consumerOk, consumer] at readerOk
    · simp [ReaderOk, reader, consumerOk] at readerOk

/-- A file of one record with buffers of one edge: the reader fills and
publishes, the consumer swaps and returns the record. -/
theorem delivers_one_record :
    ∃ s, Run.run (step 1) (new 1 (List.replicate 12 0 ++ [0, 1, 0, 0, 0, 2, 0, 0, 0]))
        [.reader 0 0, .reader 0 0, .reader 0 0, .consumer, .consumer, .consumer, .consumer,
          .consumer] = some s ∧
      Delivered [⟨1, 2, 0⟩] s.results ∧ s.results = [some ⟨1, 2, 0⟩] := by
  have returned : (Run.run (step 1) (new 1 (List.replicate 12 0 ++ [0, 1, 0, 0, 0, 2, 0, 0, 0]))
      [.reader 0 0, .reader 0 0, .reader 0 0, .consumer, .consumer, .consumer, .consumer,
        .consumer]).map results = some [some ⟨1, 2, 0⟩] := by decide +kernel
  obtain ⟨s, reached, same⟩ := Option.map_eq_some_iff.mp returned
  have safe := delivers_every_record (k := 1) (by decide) (by decide) (by decide) reached
  exact ⟨s, reached, safe.2.1, same⟩

end Runs

end BufferedEdgeInput
end Zeppelin.Stream
