import Zeppelin.Stream.BufferedEdgeInput
import Zeppelin.Stream.TextFile

/-! `BufferedFileInput.h`, which hands over the lines of a text file as
`BufferedEdgeInput.h` hands over edges. The reader thread is started by the member
initialiser of `reader`, and `swapWaiting` and `endOfFile` are initialised after
it, so the constructor's writes to the two flags are steps of their own. Before
them the flags are indeterminate. Calls of `getline` come after construction. -/
namespace Zeppelin.Stream

open Delivery

/-- What is left of the constructor once the reader thread runs. -/
inductive ConstructorPc where
  | swapWaiting
  | endOfFile
  | reserveRead
  | reserveWrite
  | done
  deriving DecidableEq

/-- Where `getline` stands; `idle` is between two calls. -/
inductive GetlinePc where
  | idle
  | locking
  | asleep
  | notifying
  | fetching
  deriving DecidableEq

structure BufferedFileInput where
  stream : IStream
  buffers : Fin 2 → List Line
  readBuffer : Fin 2
  writeBuffer : Fin 2
  currentElement : Nat
  swapWaiting : Bool
  endOfFile : Bool
  building : ConstructorPc
  reader : ReaderPc
  consumer : GetlinePc
  results : List (Option Line)

namespace BufferedFileInput

inductive Turn where
  | construct
  | reader
  | consumer
  | wakeReader
  | wakeConsumer

/-- The members that are initialised up to `reader`, which starts the thread. -/
def start (bufferSize : Nat) (file : List UInt8) (swapWaiting endOfFile : Bool) :
    BufferedFileInput where
  stream := ⟨file, true⟩
  buffers := fun _ => []
  readBuffer := ⟨0, Nat.two_pos⟩
  writeBuffer := ⟨1, Nat.one_lt_two⟩
  currentElement := bufferSize
  swapWaiting := swapWaiting
  endOfFile := endOfFile
  building := .swapWaiting
  reader := .filling 0
  consumer := .idle
  results := []

def reading (s : BufferedFileInput) : List Line := s.buffers s.readBuffer
def writing (s : BufferedFileInput) : List Line := s.buffers s.writeBuffer

def setWriting (s : BufferedFileInput) (content : List Line) : BufferedFileInput :=
  { s with buffers := Function.update s.buffers s.writeBuffer content }

def notifyAll (s : BufferedFileInput) : BufferedFileInput :=
  { s with
    reader := if s.reader = .asleep then .woken else s.reader
    consumer := if s.consumer = .asleep then .locking else s.consumer }

/-- The next initialisation. Reserving memory leaves the contents as they are. -/
def construct (s : BufferedFileInput) : Option BufferedFileInput :=
  match s.building with
  | .swapWaiting => some { s with swapWaiting := false, building := .endOfFile }
  | .endOfFile => some { s with endOfFile := false, building := .reserveRead }
  | .reserveRead => some { s with building := .reserveWrite }
  | .reserveWrite => some { s with building := .done }
  | .done => none

/-- The next step of `ingest`. The wait after a full buffer finds its condition
false, since the same locked section set `swapWaiting`. -/
def ingest (bufferSize : Nat) (s : BufferedFileInput) : Option BufferedFileInput :=
  match s.reader with
  | .filling i =>
    if i < bufferSize then
      match s.stream.getline with
      | (none, stream) => some { s with stream := stream, reader := .ending }
      | (some line, stream) =>
        some { s.setWriting (s.writing ++ [line]) with stream := stream, reader := .filling (i + 1) }
    else some { s with reader := .publishing }
  | .ending => some { ({ s with swapWaiting := true, endOfFile := true }).notifyAll with reader := .done }
  | .publishing => some { ({ s with swapWaiting := true }).notifyAll with reader := .asleep }
  | .woken => some { s with reader := if s.swapWaiting then .asleep else .filling 0 }
  | .asleep => none
  | .done => none

/-- The next step of `getline`. The locked section clears the read buffer before
it swaps, so the cleared buffer becomes the write buffer. -/
def getline (s : BufferedFileInput) : Option BufferedFileInput :=
  match s.consumer with
  | .idle =>
    if s.building = .done then
      some { s with consumer := if s.reading.length ≤ s.currentElement then .locking else .fetching }
    else none
  | .locking =>
    if s.swapWaiting || s.endOfFile then
      some { s with
        buffers := Function.update s.buffers s.readBuffer []
        readBuffer := s.writeBuffer
        writeBuffer := s.readBuffer
        currentElement := 0
        swapWaiting := false
        consumer := .notifying }
    else some { s with consumer := .asleep }
  | .notifying => some { s.notifyAll with consumer := .fetching }
  | .fetching =>
    match s.reading[s.currentElement]? with
    | some line =>
      some { s with
        currentElement := s.currentElement + 1
        results := s.results ++ [some line]
        consumer := .idle }
    | none => some { s with results := s.results ++ [none], consumer := .idle }
  | .asleep => none

def step (bufferSize : Nat) (s : BufferedFileInput) : Turn → Option BufferedFileInput
  | .construct => s.construct
  | .reader => s.ingest bufferSize
  | .consumer => s.getline
  | .wakeReader => if s.reader = .asleep then some { s with reader := .woken } else none
  | .wakeConsumer => if s.consumer = .asleep then some { s with consumer := .locking } else none

/-- The constructor does not overwrite what the reader announced: `swapWaiting`
is initialised before the reader waits or has finished, `endOfFile` before it
has finished. -/
def InTime (s : BufferedFileInput) : Turn → Prop
  | .construct =>
    match s.building with
    | .swapWaiting => s.reader ≠ .asleep ∧ s.reader ≠ .done
    | .endOfFile => s.reader ≠ .done
    | _ => True
  | _ => True

/-- The lines are delivered, and a sleeping consumer has a reader that goes on. -/
def Sound (file : List UInt8) (s : BufferedFileInput) : Prop :=
  Delivered (lines file) s.results ∧
    ¬(s.consumer = .asleep ∧ (s.reader = .asleep ∨ s.reader = .done))

section Invariant

/-- The constructor has initialised `swapWaiting`, and `endOfFile`. -/
def SwapKnown (s : BufferedFileInput) : Prop := s.building ≠ .swapWaiting

def EofKnown (s : BufferedFileInput) : Prop := s.building ≠ .swapWaiting ∧ s.building ≠ .endOfFile

/-- `endOfFile` is not set, once it is initialised. -/
def Running (s : BufferedFileInput) : Prop := s.EofKnown → s.endOfFile = false

/-- Neither flag is set, once it is initialised. -/
def Unset (s : BufferedFileInput) : Prop := (s.SwapKnown → s.swapWaiting = false) ∧ s.Running

/-- What the reader knows at each point. A constructor that resets `swapWaiting`
lets a woken reader go on with a buffer that nobody took, so a buffer may hold
more lines than the loop counts. -/
def ReaderOk (s : BufferedFileInput) : Prop :=
  match s.reader with
  | .filling i => i ≤ s.writing.length ∧ s.Unset
  | .publishing => s.writing ≠ [] ∧ s.Unset
  | .ending => s.stream.rest = [] ∧ s.Unset
  | .asleep => s.Running ∧ (s.swapWaiting = true ∧ s.writing ≠ [] ∨
      s.swapWaiting = false ∧ s.consumer = .notifying)
  | .woken => s.Running ∧ (s.swapWaiting = true → s.writing ≠ [])
  | .done => s.endOfFile = true ∧ s.stream.rest = []

/-- What the consumer knows at each point. -/
def ConsumerOk (s : BufferedFileInput) : Prop :=
  match s.consumer with
  | .idle => True
  | .locking => s.reading.length ≤ s.currentElement
  | .asleep => s.reading.length ≤ s.currentElement ∧ s.swapWaiting = false ∧ s.endOfFile = false
  | .notifying | .fetching =>
    s.reading.length ≤ s.currentElement → s.endOfFile = true ∧ s.writing = []

/-- The invariant: the returned lines, the rest of the read buffer, the write
buffer and the unread lines are the lines of the file. -/
structure Inv (items : List Line) (s : BufferedFileInput) : Prop where
  distinct : s.readBuffer ≠ s.writeBuffer
  readable : s.stream.good = true ∨ s.stream.rest = []
  conserved : s.results.reduceOption ++ (s.reading.drop s.currentElement ++
    (s.writing ++ lines s.stream.rest)) = items
  delivered : Delivered items s.results
  built : s.consumer ≠ .idle → s.building = .done
  readerOk : ReaderOk s
  consumerOk : ConsumerOk s

end Invariant

section Frames

variable {s t : BufferedFileInput}

theorem setWriting_writing (s : BufferedFileInput) (content : List Line) :
    (s.setWriting content).writing = content := Function.update_self _ _ _

theorem setWriting_reading (distinct : s.readBuffer ≠ s.writeBuffer) (content : List Line) :
    (s.setWriting content).reading = s.reading := Function.update_of_ne distinct _ _

theorem Running.endOfFile (running : s.Running) (built : s.building = .done) :
    s.endOfFile = false := running (by rw [EofKnown, built]; decide)

/-- What the consumer knows is about its own buffer and the flags, and about the
write buffer only once the file has ended. -/
theorem ConsumerOk.frame (ok : ConsumerOk s) (pc : t.consumer = s.consumer)
    (reading : t.reading = s.reading) (current : t.currentElement = s.currentElement)
    (waiting : t.swapWaiting = s.swapWaiting) (eof : t.endOfFile = s.endOfFile)
    (writing : s.consumer ≠ .idle → s.endOfFile = true → t.writing = s.writing) : ConsumerOk t := by
  rw [ConsumerOk] at ok ⊢
  rw [pc, reading, current, waiting, eof]
  cases here : s.consumer with
  | idle => trivial
  | locking | asleep => simpa only [here] using ok
  | notifying | fetching =>
    simp only [here] at ok
    intro exhausted
    obtain ⟨ended, empty⟩ := ok exhausted
    exact ⟨ended, (writing (by simp [here]) ended).trans empty⟩

/-- What the reader knows does not depend on a consumer that is not about to
notify it. -/
theorem ReaderOk.frame (ok : ReaderOk s) (pc : t.reader = s.reader)
    (writing : t.writing = s.writing) (waiting : t.swapWaiting = s.swapWaiting)
    (eof : t.endOfFile = s.endOfFile) (swapKnown : t.SwapKnown ↔ s.SwapKnown)
    (eofKnown : t.EofKnown ↔ s.EofKnown) (stream : t.stream = s.stream)
    (quiet : s.consumer ≠ .notifying) : ReaderOk t := by
  rw [ReaderOk] at ok ⊢
  rw [pc]
  simp only [Unset, Running, swapKnown, eofKnown, writing, waiting, eof, stream] at ok ⊢
  cases here : s.reader with
  | filling | publishing | ending | woken | done => simpa only [here] using ok
  | asleep =>
    simp only [here] at ok
    obtain ⟨running, full | ⟨-, notifying⟩⟩ := ok
    · exact ⟨running, Or.inl full⟩
    · exact absurd notifying quiet

end Frames

section Constructor

variable {items : List Line} {s t : BufferedFileInput}

theorem Inv.consumer_idle (inv : Inv items s) (unbuilt : s.building ≠ .done) :
    s.consumer = .idle := by
  by_contra busy
  exact unbuilt (inv.built busy)

/-- A reader that neither waits nor has finished has not set a flag, or was woken
and tests `swapWaiting` again. -/
theorem resetSwap_readerOk (ok : ReaderOk s) (awake : s.reader ≠ .asleep)
    (unfinished : s.reader ≠ .done) :
    ReaderOk { s with swapWaiting := false, building := .endOfFile } := by
  have unset : Unset { s with swapWaiting := false, building := .endOfFile } :=
    ⟨fun _ => rfl, fun known => absurd rfl known.2⟩
  rw [ReaderOk] at ok ⊢
  cases here : s.reader with
  | filling | publishing | ending =>
    simp only [here] at ok
    exact ⟨ok.1, unset⟩
  | woken => exact ⟨unset.2, nofun⟩
  | asleep => exact absurd here awake
  | done => exact absurd here unfinished

/-- Only a reader that has finished relies on `endOfFile`. -/
theorem resetEof_readerOk (ok : ReaderOk s) (known : s.SwapKnown) (unfinished : s.reader ≠ .done) :
    ReaderOk { s with endOfFile := false, building := .reserveRead } := by
  have running : Running { s with endOfFile := false, building := .reserveRead } := fun _ => rfl
  rw [ReaderOk] at ok ⊢
  cases here : s.reader with
  | filling | publishing | ending =>
    simp only [here] at ok
    exact ⟨ok.1, fun _ => ok.2.1 known, running⟩
  | woken | asleep =>
    simp only [here] at ok
    exact ⟨running, ok.2⟩
  | done => exact absurd here unfinished

/-- An initialisation in time keeps what the reader knows. -/
theorem construct_readerOk (inTime : s.InTime .construct) (ok : ReaderOk s)
    (idle : s.consumer = .idle) (done : s.construct = some t) : ReaderOk t := by
  have quiet : s.consumer ≠ .notifying := by simp [idle]
  simp only [construct] at done
  simp only [InTime] at inTime
  cases pc : s.building with
  | swapWaiting =>
    simp only [pc, Option.some.injEq] at done inTime
    subst done
    exact resetSwap_readerOk ok inTime.1 inTime.2
  | endOfFile =>
    simp only [pc, Option.some.injEq] at done inTime
    subst done
    exact resetEof_readerOk ok (by rw [SwapKnown, pc]; decide) inTime
  | reserveRead | reserveWrite =>
    simp only [pc, Option.some.injEq] at done
    subst done
    exact ok.frame rfl rfl rfl rfl (by simp [SwapKnown, pc]) (by simp [EofKnown, pc]) rfl quiet
  | done => simp only [pc, reduceCtorEq] at done

/-- An initialisation writes one flag at most. -/
theorem construct_cases (done : s.construct = some t) :
    s.building ≠ .done ∧ ∃ swapWaiting endOfFile building, t =
      { s with swapWaiting := swapWaiting, endOfFile := endOfFile, building := building } := by
  simp only [construct] at done
  cases pc : s.building with
  | swapWaiting | endOfFile | reserveRead | reserveWrite =>
    simp only [pc, Option.some.injEq] at done
    exact ⟨by decide, _, _, _, done.symm⟩
  | done => simp only [pc, reduceCtorEq] at done

theorem construct_inv (inv : Inv items s) (inTime : s.InTime .construct)
    (done : s.construct = some t) : Inv items t := by
  obtain ⟨unbuilt, swapWaiting, endOfFile, building, rfl⟩ := construct_cases done
  have idle := inv.consumer_idle unbuilt
  have readerOk := construct_readerOk inTime inv.readerOk idle done
  obtain ⟨distinct, readable, conserved, delivered, -, -, -⟩ := inv
  refine ⟨distinct, readable, conserved, delivered, fun busy => absurd idle busy, readerOk, ?_⟩
  rw [ConsumerOk]
  simp only [idle]

end Constructor

section Reader

variable {bufferSize : Nat} {items : List Line} {s t : BufferedFileInput}

/-- While the file has not ended, a waiting consumer is not affected by what is
written. -/
theorem Inv.consumerOk_running (inv : Inv items s) (running : s.Running)
    (pc : t.consumer = s.consumer) (reading : t.reading = s.reading)
    (current : t.currentElement = s.currentElement) (waiting : t.swapWaiting = s.swapWaiting)
    (eof : t.endOfFile = s.endOfFile) : ConsumerOk t := by
  refine inv.consumerOk.frame pc reading current waiting eof fun busy ended => ?_
  rw [running.endOfFile (inv.built busy)] at ended
  contradiction

/-- One iteration of the loop, or its end, keeps the invariant. -/
theorem filling_inv (positive : 1 ≤ bufferSize) (inv : Inv items s) {i : Nat}
    (pc : s.reader = .filling i) (done : s.ingest bufferSize = some t) : Inv items t := by
  have readerOk := inv.readerOk
  simp only [ReaderOk, pc] at readerOk
  obtain ⟨filled, unset⟩ := readerOk
  simp only [ingest, pc] at done
  split at done
  · by_cases left : s.stream.rest = []
    · rw [getline_none left] at done
      cases Option.some.inj done
      refine ⟨inv.distinct, Or.inr rfl, ?_, inv.delivered, inv.built, ⟨rfl, unset⟩,
        inv.consumerOk_running unset.2 rfl rfl rfl rfl rfl⟩
      have conserved := inv.conserved
      rw [left] at conserved
      exact conserved
    · have good := inv.readable.resolve_right left
      obtain ⟨line, next, read, readable, split⟩ := getline_some good left
      rw [read] at done
      cases Option.some.inj done
      have reads := setWriting_reading inv.distinct (s.writing ++ [line])
      have writes := setWriting_writing s (s.writing ++ [line])
      refine ⟨inv.distinct, readable, ?_, inv.delivered, inv.built, ⟨?_, unset⟩,
        inv.consumerOk_running unset.2 rfl reads rfl rfl rfl⟩
      · change s.results.reduceOption ++ ((s.setWriting (s.writing ++ [line])).reading.drop
          s.currentElement ++ ((s.setWriting (s.writing ++ [line])).writing ++ lines next.rest)) = items
        rw [reads, writes, ← inv.conserved, split, List.append_assoc, List.singleton_append]
      · change i + 1 ≤ (s.setWriting (s.writing ++ [line])).writing.length
        rw [writes, List.length_append, List.length_singleton]
        omega
  · rename_i full
    cases Option.some.inj done
    have some_line : s.writing ≠ [] := List.ne_nil_of_length_pos (by omega)
    exact ⟨inv.distinct, inv.readable, inv.conserved, inv.delivered, inv.built, ⟨some_line, unset⟩,
      inv.consumerOk_running unset.2 rfl rfl rfl rfl rfl⟩

/-- A notification wakes a sleeping consumer and nothing else of it changes. -/
theorem Inv.notified_consumerOk (inv : Inv items s) (running : s.Running)
    (pc : t.consumer = if s.consumer = .asleep then .locking else s.consumer)
    (reading : t.reading = s.reading) (current : t.currentElement = s.currentElement) :
    ConsumerOk t := by
  have ok := inv.consumerOk
  have busy : s.consumer ≠ .idle → s.endOfFile = false :=
    fun busy => running.endOfFile (inv.built busy)
  rw [ConsumerOk] at ok ⊢
  rw [pc, reading, current]
  cases here : s.consumer with
  | idle => trivial
  | locking =>
    simp only [here] at ok
    simpa only [reduceCtorEq, if_false] using ok
  | asleep =>
    simp only [here] at ok
    simpa only [if_true] using ok.1
  | notifying | fetching =>
    simp only [here, busy (by simp [here]), Bool.false_eq_true, false_and, imp_false] at ok
    simp only [reduceCtorEq, if_false]
    exact fun exhausted => absurd exhausted ok

theorem notified_busy {pc : GetlinePc}
    (busy : (if pc = .asleep then GetlinePc.locking else pc) ≠ .idle) : pc ≠ .idle := by
  rintro rfl
  exact busy rfl

theorem ingest_inv (positive : 1 ≤ bufferSize) (inv : Inv items s)
    (done : s.ingest bufferSize = some t) : Inv items t := by
  have readerOk := inv.readerOk
  cases pc : s.reader with
  | filling i => exact filling_inv positive inv pc done
  | ending =>
    simp only [ReaderOk, pc] at readerOk
    obtain ⟨empty, unset⟩ := readerOk
    simp only [ingest, pc] at done
    cases Option.some.inj done
    exact ⟨inv.distinct, inv.readable, inv.conserved, inv.delivered,
      fun busy => inv.built (notified_busy busy), ⟨rfl, empty⟩,
      inv.notified_consumerOk unset.2 rfl rfl rfl⟩
  | publishing =>
    simp only [ReaderOk, pc] at readerOk
    obtain ⟨full, unset⟩ := readerOk
    simp only [ingest, pc] at done
    cases Option.some.inj done
    exact ⟨inv.distinct, inv.readable, inv.conserved, inv.delivered,
      fun busy => inv.built (notified_busy busy), ⟨unset.2, Or.inl ⟨rfl, full⟩⟩,
      inv.notified_consumerOk unset.2 rfl rfl rfl⟩
  | woken =>
    simp only [ReaderOk, pc] at readerOk
    obtain ⟨running, full⟩ := readerOk
    simp only [ingest, pc] at done
    cases Option.some.inj done
    refine ⟨inv.distinct, inv.readable, inv.conserved, inv.delivered, inv.built, ?_,
      inv.consumerOk_running running rfl rfl rfl rfl rfl⟩
    cases waiting : s.swapWaiting with
    | true =>
      simp only [ReaderOk, if_true]
      exact ⟨running, Or.inl ⟨trivial, full waiting⟩⟩
    | false =>
      simp only [ReaderOk, Bool.false_eq_true, if_false]
      exact ⟨Nat.zero_le _, fun _ => rfl, running⟩
  | asleep => simp only [ingest, pc, reduceCtorEq] at done
  | done => simp only [ingest, pc, reduceCtorEq] at done

end Reader

section Consumer

variable {items : List Line} {s t : BufferedFileInput}

/-- Once the object is built, while a flag is set the reader has finished, or it
waits with lines to hand over. -/
theorem flagged_reader (ok : ReaderOk s) (built : s.building = .done)
    (flagged : (s.swapWaiting || s.endOfFile) = true) :
    (s.reader = .done ∧ s.endOfFile = true ∧ s.stream.rest = []) ∨
      ((s.reader = .asleep ∨ s.reader = .woken) ∧ s.endOfFile = false ∧ s.writing ≠ []) := by
  have known : s.SwapKnown := by rw [SwapKnown, built]; decide
  rw [ReaderOk] at ok
  cases pc : s.reader with
  | filling | publishing | ending =>
    simp only [pc] at ok
    simp [ok.2.1 known, ok.2.2.endOfFile built] at flagged
  | asleep =>
    simp only [pc] at ok
    have running := ok.1.endOfFile built
    obtain ⟨-, ⟨-, full⟩ | ⟨idle, -⟩⟩ := ok
    · exact Or.inr ⟨Or.inl rfl, running, full⟩
    · simp [running, idle] at flagged
  | woken =>
    simp only [pc] at ok
    have running := ok.1.endOfFile built
    rw [running, Bool.or_false] at flagged
    exact Or.inr ⟨Or.inr rfl, running, ok.2 flagged⟩
  | done =>
    simp only [pc] at ok
    exact Or.inl ⟨rfl, ok⟩

theorem idle_inv (inv : Inv items s) (pc : s.consumer = .idle) (done : s.getline = some t) :
    Inv items t := by
  simp only [getline, pc, Option.ite_none_right_eq_some, Option.some.injEq] at done
  obtain ⟨built, rfl⟩ := done
  refine ⟨inv.distinct, inv.readable, inv.conserved, inv.delivered, fun _ => built,
    inv.readerOk.frame rfl rfl rfl rfl Iff.rfl Iff.rfl rfl (by simp [pc]), ?_⟩
  by_cases exhausted : s.reading.length ≤ s.currentElement
  · simp only [ConsumerOk, if_pos exhausted]
    exact exhausted
  · simp only [ConsumerOk, if_neg exhausted]
    exact fun contrary => absurd contrary exhausted

/-- The swap passes some lines or the last ones to the consumer, and an empty
buffer back. -/
theorem swap_inv (inv : Inv items s) (pc : s.consumer = .locking)
    (flagged : (s.swapWaiting || s.endOfFile) = true) (done : s.getline = some t) :
    Inv items t := by
  have built := inv.built (by simp [pc])
  have consumerOk := inv.consumerOk
  simp only [ConsumerOk, pc] at consumerOk
  simp only [getline, pc, if_pos flagged] at done
  cases Option.some.inj done
  have cleared : Function.update s.buffers s.readBuffer [] s.readBuffer = [] :=
    Function.update_self _ _ _
  have passed : Function.update s.buffers s.readBuffer [] s.writeBuffer = s.writing :=
    Function.update_of_ne inv.distinct.symm _ _
  have balance : s.results.reduceOption ++
      ((Function.update s.buffers s.readBuffer [] s.writeBuffer).drop 0 ++
        (Function.update s.buffers s.readBuffer [] s.readBuffer ++ lines s.stream.rest)) =
      items := by
    rw [cleared, passed, List.drop_zero, List.nil_append, ← inv.conserved,
      List.drop_eq_nil_of_le consumerOk, List.nil_append]
  rcases flagged_reader inv.readerOk built flagged with ⟨reader, ended, empty⟩ |
    ⟨reader, running, full⟩
  · refine ⟨inv.distinct.symm, inv.readable, balance, inv.delivered, fun _ => built, ?_,
      fun _ => ⟨ended, cleared⟩⟩
    simp only [ReaderOk, reader]
    exact ⟨ended, empty⟩
  · refine ⟨inv.distinct.symm, inv.readable, balance, inv.delivered, fun _ => built, ?_,
      fun exhausted => ?_⟩
    · rcases reader with reader | reader
      · simp only [ReaderOk, reader]
        exact ⟨fun _ => running, Or.inr ⟨trivial, trivial⟩⟩
      · simp only [ReaderOk, reader]
        exact ⟨fun _ => running, nofun⟩
    · change (Function.update s.buffers s.readBuffer [] s.writeBuffer).length ≤ 0 at exhausted
      rw [passed] at exhausted
      exact absurd (List.eq_nil_of_length_eq_zero (Nat.le_zero.mp exhausted)) full

theorem locking_inv (inv : Inv items s) (pc : s.consumer = .locking)
    (done : s.getline = some t) : Inv items t := by
  by_cases flagged : (s.swapWaiting || s.endOfFile) = true
  · exact swap_inv inv pc flagged done
  · have consumerOk := inv.consumerOk
    simp only [ConsumerOk, pc] at consumerOk
    simp only [getline, pc, if_neg flagged] at done
    cases Option.some.inj done
    simp only [Bool.or_eq_true, not_or, Bool.not_eq_true] at flagged
    exact ⟨inv.distinct, inv.readable, inv.conserved, inv.delivered,
      fun _ => inv.built (by simp [pc]),
      inv.readerOk.frame rfl rfl rfl rfl Iff.rfl Iff.rfl rfl (by simp [pc]),
      ⟨consumerOk, flagged⟩⟩

theorem notifying_inv (inv : Inv items s) (pc : s.consumer = .notifying)
    (done : s.getline = some t) : Inv items t := by
  have built := inv.built (by simp [pc])
  have consumerOk := inv.consumerOk
  have readerOk := inv.readerOk
  simp only [ConsumerOk, pc] at consumerOk
  simp only [getline, pc] at done
  cases Option.some.inj done
  refine ⟨inv.distinct, inv.readable, inv.conserved, inv.delivered, fun _ => built, ?_, consumerOk⟩
  rw [ReaderOk] at readerOk ⊢
  cases reader : s.reader with
  | asleep =>
    simp only [reader] at readerOk
    simp only [notifyAll, reader, if_true]
    obtain ⟨running, ⟨-, full⟩ | ⟨swapped, -⟩⟩ := readerOk
    · exact ⟨running, fun _ => full⟩
    · exact ⟨running, fun waiting => by simp [swapped] at waiting⟩
  | filling | publishing | ending | woken | done =>
    simp only [reader] at readerOk
    simp only [notifyAll, reader, reduceCtorEq, if_false]
    exact readerOk

theorem fetching_inv (inv : Inv items s) (pc : s.consumer = .fetching)
    (done : s.getline = some t) : Inv items t := by
  have built := inv.built (by simp [pc])
  have quiet : s.consumer ≠ .notifying := by simp [pc]
  have conserved := inv.conserved
  have consumerOk := inv.consumerOk
  simp only [ConsumerOk, pc] at consumerOk
  simp only [getline, pc] at done
  cases found : s.reading[s.currentElement]? with
  | some line =>
    rw [found] at done
    cases Option.some.inj done
    obtain ⟨within, stored⟩ := List.getElem?_eq_some_iff.mp found
    rw [List.drop_eq_getElem_cons within, stored, List.cons_append] at conserved
    refine ⟨inv.distinct, inv.readable, ?_, inv.delivered.item conserved, fun _ => built,
      inv.readerOk.frame rfl rfl rfl rfl Iff.rfl Iff.rfl rfl quiet, trivial⟩
    rw [← conserved, List.reduceOption_append, List.append_assoc]
    rfl
  | none =>
    rw [found] at done
    cases Option.some.inj done
    have exhausted := List.getElem?_eq_none_iff.mp found
    obtain ⟨ended, empty⟩ := consumerOk exhausted
    have complete : s.results.reduceOption = items := by
      rcases flagged_reader inv.readerOk built (by simp [ended]) with ⟨-, -, rest⟩ | ⟨-, running, -⟩
      · rw [List.drop_eq_nil_of_le exhausted, empty, rest] at conserved
        simpa [lines] using conserved
      · rw [ended] at running
        contradiction
    refine ⟨inv.distinct, inv.readable, ?_, inv.delivered.finish complete, fun _ => built,
      inv.readerOk.frame rfl rfl rfl rfl Iff.rfl Iff.rfl rfl quiet, trivial⟩
    rw [← conserved, List.reduceOption_append, List.append_assoc]
    rfl

theorem getline_inv (inv : Inv items s) (done : s.getline = some t) : Inv items t := by
  cases pc : s.consumer with
  | idle => exact idle_inv inv pc done
  | locking => exact locking_inv inv pc done
  | notifying => exact notifying_inv inv pc done
  | fetching => exact fetching_inv inv pc done
  | asleep => simp only [getline, pc, reduceCtorEq] at done

end Consumer

section Runs

variable {bufferSize : Nat} {items : List Line} {s t : BufferedFileInput}

theorem step_inv (positive : 1 ≤ bufferSize) {turn : Turn} (inv : Inv items s)
    (inTime : s.InTime turn) (done : s.step bufferSize turn = some t) : Inv items t := by
  cases turn with
  | construct => exact construct_inv inv inTime done
  | reader => exact ingest_inv positive inv done
  | consumer => exact getline_inv inv done
  | wakeReader =>
    simp only [step, Option.ite_none_right_eq_some, Option.some.injEq] at done
    obtain ⟨pc, rfl⟩ := done
    have readerOk := inv.readerOk
    simp only [ReaderOk, pc] at readerOk
    refine ⟨inv.distinct, inv.readable, inv.conserved, inv.delivered, inv.built, ?_,
      inv.consumerOk_running readerOk.1 rfl rfl rfl rfl rfl⟩
    obtain ⟨running, ⟨-, full⟩ | ⟨swapped, -⟩⟩ := readerOk
    · exact ⟨running, fun _ => full⟩
    · exact ⟨running, fun waiting => by simp [swapped] at waiting⟩
  | wakeConsumer =>
    simp only [step, Option.ite_none_right_eq_some, Option.some.injEq] at done
    obtain ⟨pc, rfl⟩ := done
    have consumerOk := inv.consumerOk
    simp only [ConsumerOk, pc] at consumerOk
    exact ⟨inv.distinct, inv.readable, inv.conserved, inv.delivered,
      fun _ => inv.built (by simp [pc]),
      inv.readerOk.frame rfl rfl rfl rfl Iff.rfl Iff.rfl rfl (by simp [pc]), consumerOk.1⟩

theorem start_inv (bufferSize : Nat) (file : List UInt8) (swapWaiting endOfFile : Bool) :
    Inv (lines file) (start bufferSize file swapWaiting endOfFile) := by
  refine ⟨show (0 : Fin 2) ≠ 1 by decide, Or.inl rfl, ?_, delivered_nil _,
    fun busy => absurd rfl busy, ⟨Nat.zero_le _, ?_, ?_⟩, trivial⟩
  · simp [start, reading, writing]
  · exact fun known => absurd rfl known
  · exact fun known => absurd rfl known.1

theorem Inv.sound {file : List UInt8} (inv : Inv (lines file) s) : s.Sound file := by
  refine ⟨inv.delivered, ?_⟩
  rintro ⟨consumer, reader⟩
  have consumerOk := inv.consumerOk
  have readerOk := inv.readerOk
  simp only [ConsumerOk, consumer] at consumerOk
  rcases reader with reader | reader
  · simp [ReaderOk, reader, consumerOk, consumer] at readerOk
  · simp [ReaderOk, reader, consumerOk] at readerOk

/-- In every interleaving in which the constructor does not overwrite what the
reader announced, the lines are delivered in order and nobody waits for a thread
that waits or has finished. -/
theorem delivers_every_line (positive : 1 ≤ bufferSize) (file : List UInt8)
    (swapWaiting endOfFile : Bool) {schedule : List Turn}
    (inTime : Run.EachStep (step bufferSize) InTime
      (start bufferSize file swapWaiting endOfFile) schedule) :
    Run.Always (step bufferSize) (Sound file)
      (start bufferSize file swapWaiting endOfFile) schedule :=
  Run.always_of_eachStep Inv.sound (step_inv positive)
    (start_inv bufferSize file swapWaiting endOfFile) inTime

theorem ingest_building (done : s.ingest bufferSize = some t) : t.building = s.building := by
  simp only [ingest] at done
  cases pc : s.reader with
  | filling i =>
    simp only [pc] at done
    split at done
    · split at done <;> exact Option.some.inj done ▸ rfl
    · exact Option.some.inj done ▸ rfl
  | ending | publishing | woken =>
    simp only [pc] at done
    exact Option.some.inj done ▸ rfl
  | asleep | done => simp only [pc, reduceCtorEq] at done

theorem getline_building (done : s.getline = some t) : t.building = s.building := by
  simp only [getline] at done
  cases pc : s.consumer with
  | idle =>
    simp only [pc, Option.ite_none_right_eq_some] at done
    exact Option.some.inj done.2 ▸ rfl
  | locking =>
    simp only [pc] at done
    split at done <;> exact Option.some.inj done ▸ rfl
  | notifying =>
    simp only [pc] at done
    exact Option.some.inj done ▸ rfl
  | fetching =>
    simp only [pc] at done
    split at done <;> exact Option.some.inj done ▸ rfl
  | asleep => simp only [pc, reduceCtorEq] at done

/-- Once the object is built no step is late. -/
theorem inTime_of_built (built : s.building = .done) {schedule : List Turn} :
    Run.EachStep (step bufferSize) InTime s schedule := by
  intro before turn after t _ reached
  have still : t.building = .done := by
    refine Run.run_invariant (P := fun s => s.building = .done) ?_ built reached
    intro s turn t built done
    cases turn with
    | construct => simp only [step, construct, built, reduceCtorEq] at done
    | reader => exact (ingest_building done).trans built
    | consumer => exact (getline_building done).trans built
    | wakeReader =>
      simp only [step, Option.ite_none_right_eq_some, Option.some.injEq] at done
      obtain ⟨-, rfl⟩ := done
      exact built
    | wakeConsumer =>
      simp only [step, Option.ite_none_right_eq_some, Option.some.injEq] at done
      obtain ⟨-, rfl⟩ := done
      exact built
  cases turn with
  | construct => simp only [InTime, still]
  | reader | consumer | wakeReader | wakeConsumer => trivial

/-- After the constructor, the reader and the consumer take turns over two lines and
the end of the file. -/
def sampleTurns : List Turn :=
  .construct :: .construct :: .construct :: .construct :: (List.replicate 3 .reader ++
    List.replicate 3 .consumer ++ List.replicate 4 .reader ++ List.replicate 4 .consumer ++
    List.replicate 3 .reader ++ List.replicate 5 .consumer)

/-- The lines `a` and `bc`, each in a buffer of one line, and then the end. -/
theorem delivers_two_lines :
    ∃ s, Run.run (step 1) (start 1 [97, 10, 98, 99, 10] true true) sampleTurns = some s ∧
      s.Sound [97, 10, 98, 99, 10] ∧ s.results = [some [97], some [98, 99], none] := by
  have returned : (Run.run (step 1) (start 1 [97, 10, 98, 99, 10] true true) sampleTurns).map
      results = some [some [97], some [98, 99], none] := by decide +kernel
  obtain ⟨s, reached, same⟩ := Option.map_eq_some_iff.mp returned
  have inTime : Run.EachStep (step 1) InTime (start 1 [97, 10, 98, 99, 10] true true)
      sampleTurns := by
    refine (Run.eachStep_cons rfl).mpr ⟨⟨nofun, nofun⟩, ?_⟩
    refine (Run.eachStep_cons rfl).mpr ⟨nofun, ?_⟩
    refine (Run.eachStep_cons rfl).mpr ⟨trivial, ?_⟩
    exact (Run.eachStep_cons rfl).mpr ⟨trivial, inTime_of_built rfl⟩
  have sound := delivers_every_line (by decide) [97, 10, 98, 99, 10] true true inTime _ [] s
    (List.append_nil _).symm reached
  exact ⟨s, reached, sound, same⟩

/-- The reader finds one line and the end before the constructor resets the two
flags; the consumer then waits for a reader that has finished. -/
theorem delivers_no_line :
    ¬∀ bufferSize ≥ 1, ∀ file swapWaiting endOfFile schedule,
      Run.Always (step bufferSize) (Sound file) (start bufferSize file swapWaiting endOfFile)
        schedule := by
  intro always
  have stuck : (Run.run (step 2) (start 2 [97, 10] true true)
      [.reader, .reader, .reader, .construct, .construct, .construct, .construct, .consumer,
        .consumer]).map (fun s => (s.consumer, s.reader)) = some (.asleep, .done) := by
    decide +kernel
  obtain ⟨s, reached, same⟩ := Option.map_eq_some_iff.mp stuck
  obtain ⟨consumer, reader⟩ := Prod.mk.inj same
  have sound := always 2 (by decide) [97, 10] true true _ _ [] s (List.append_nil _).symm reached
  exact sound.2 ⟨consumer, Or.inr reader⟩

end Runs

end BufferedFileInput
end Zeppelin.Stream
