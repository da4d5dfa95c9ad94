import Zeppelin.Stream.BufferedEdgeInput

/-! Files of any length. A run on a file that breaks off inside a record is, but
for the stream itself, a run on that file with the record completed by the bytes
that the reader's locals held. What was shown for whole records carries over, and
the calls that return one of the whole records return them in order. -/
namespace Zeppelin.Stream.BufferedEdgeInput

section Simulation

variable {bufferSize : Nat} {s t : BufferedEdgeInput}

def withStream (s : BufferedEdgeInput) (stream : IStream) : BufferedEdgeInput :=
  { s with stream := stream }

theorem getEdge_withStream (done : s.getEdge = some t) :
    t.stream = s.stream ∧ ∀ stream, (s.withStream stream).getEdge = some (t.withStream stream) := by
  simp only [getEdge] at done
  cases pc : s.consumer with
  | idle | clearing | notifying =>
    simp only [pc, Option.some.injEq] at done
    subst done
    exact ⟨rfl, fun stream => by simp only [getEdge, withStream, pc]; rfl⟩
  | locking =>
    simp only [pc] at done
    split at done
    · rename_i flagged
      cases Option.some.inj done
      exact ⟨rfl, fun stream => by simp only [getEdge, withStream, pc, if_pos flagged]⟩
    · rename_i unflagged
      cases Option.some.inj done
      exact ⟨rfl, fun stream => by simp only [getEdge, withStream, pc, if_neg unflagged]⟩
  | fetching =>
    have same : ∀ stream, (s.withStream stream).reading = s.reading := fun _ => rfl
    simp only [pc] at done
    cases found : s.reading[s.currentElement]? with
    | some edge =>
      simp only [found, Option.some.injEq] at done
      subst done
      exact ⟨rfl, fun stream => by simp only [getEdge, same]; simp only [withStream, pc, found]⟩
    | none =>
      simp only [found, Option.some.injEq] at done
      subst done
      exact ⟨rfl, fun stream => by simp only [getEdge, same]; simp only [withStream, pc, found]⟩
  | asleep => simp only [pc, reduceCtorEq] at done

/-- The step that reads a record does with it what it does with the same record
of another stream. -/
theorem filling_withStream {i : Nat} {srcVertex dstVertex : UInt32} (pc : s.reader = .filling i)
    (more : i < bufferSize) (done : s.ingest bufferSize srcVertex dstVertex = some t) :
    t.stream = (s.stream.readRecord srcVertex dstVertex).2 ∧
      ∀ stream : IStream,
        (stream.readRecord srcVertex dstVertex).1 = (s.stream.readRecord srcVertex dstVertex).1 →
        (s.withStream stream).ingest bufferSize srcVertex dstVertex =
          some (t.withStream (stream.readRecord srcVertex dstVertex).2) := by
  simp only [ingest, pc, if_pos more] at done ⊢
  rcases read : s.stream.readRecord srcVertex dstVertex with ⟨found, next⟩
  cases found with
  | none =>
    simp only [read, Option.some.injEq] at done
    subst done
    refine ⟨rfl, fun stream same => ?_⟩
    rcases other : stream.readRecord srcVertex dstVertex with ⟨found, next⟩
    cases other ▸ same
    simp only [withStream, pc, if_pos more, other]
  | some edge =>
    simp only [read, Option.some.injEq] at done
    subst done
    refine ⟨rfl, fun stream same => ?_⟩
    rcases other : stream.readRecord srcVertex dstVertex with ⟨found, next⟩
    cases other ▸ same
    simp only [withStream, pc, if_pos more, other]
    rfl

/-- A step leaves the stream alone, or it reads one record. -/
theorem step_withStream {turn : Turn} (done : s.step bufferSize turn = some t) :
    (t.stream = s.stream ∧
      ∀ stream, (s.withStream stream).step bufferSize turn = some (t.withStream stream)) ∨
    ∃ srcVertex dstVertex, t.stream = (s.stream.readRecord srcVertex dstVertex).2 ∧
      ∀ stream : IStream,
        (stream.readRecord srcVertex dstVertex).1 = (s.stream.readRecord srcVertex dstVertex).1 →
        (s.withStream stream).step bufferSize turn =
          some (t.withStream (stream.readRecord srcVertex dstVertex).2) := by
  cases turn with
  | reader srcVertex dstVertex =>
    simp only [step] at done ⊢
    cases pc : s.reader with
    | filling i =>
      by_cases more : i < bufferSize
      · exact Or.inr ⟨srcVertex, dstVertex, filling_withStream pc more done⟩
      · simp only [ingest, pc, if_neg more, Option.some.injEq] at done
        subst done
        exact Or.inl ⟨rfl, fun stream => by simp only [ingest, withStream, pc, if_neg more]⟩
    | ending | publishing =>
      simp only [ingest, pc, Option.some.injEq] at done
      subst done
      exact Or.inl ⟨rfl, fun stream => by simp only [ingest, withStream, pc]; rfl⟩
    | woken =>
      simp only [ingest, pc, Option.some.injEq] at done
      subst done
      exact Or.inl ⟨rfl, fun stream => by simp only [ingest, withStream, pc]⟩
    | asleep | done => simp only [ingest, pc, reduceCtorEq] at done
  | consumer => exact Or.inl (getEdge_withStream done)
  | wakeReader =>
    simp only [step, Option.ite_none_right_eq_some, Option.some.injEq] at done
    obtain ⟨pc, rfl⟩ := done
    exact Or.inl ⟨rfl, fun stream => if_pos pc⟩
  | wakeConsumer =>
    simp only [step, Option.ite_none_right_eq_some, Option.some.injEq] at done
    obtain ⟨pc, rfl⟩ := done
    exact Or.inl ⟨rfl, fun stream => if_pos pc⟩

/-- Without a byte left one stream is as good as another. -/
theorem run_exhausted {schedule : List Turn} (empty : s.stream.rest = []) (stream : IStream)
    (other : stream.rest = []) (done : Run.run (step bufferSize) s schedule = some t) :
    ∃ last, Run.run (step bufferSize) (s.withStream stream) schedule = some (t.withStream last) := by
  induction schedule generalizing s stream with
  | nil =>
    cases Option.some.inj done
    exact ⟨stream, rfl⟩
  | cons turn rest ih =>
    obtain ⟨u, first, others⟩ := (Run.run_cons_some _).mp done
    rcases step_withStream first with ⟨same, frame⟩ | ⟨srcVertex, dstVertex, reads, frame⟩
    · obtain ⟨last, run⟩ := ih (same ▸ empty) stream other others
      exact ⟨last, (Run.run_cons_some _).mpr ⟨_, frame stream, run⟩⟩
    · obtain ⟨next, read, ended⟩ := readRecord_none empty srcVertex dstVertex
      obtain ⟨next', read', ended'⟩ := readRecord_none other srcVertex dstVertex
      rw [read] at reads frame
      obtain ⟨last, run⟩ := ih (reads ▸ ended) next' ended' others
      have step := frame stream (by rw [read'])
      rw [read'] at step
      exact ⟨last, (Run.run_cons_some _).mpr ⟨_, step, run⟩⟩

/-- A run on a file that breaks off inside a record has the results of a run on
the file with this record completed. -/
theorem run_completed {schedule : List Turn} {bytes : List UInt8} (unread : s.stream = ⟨bytes, true⟩)
    (broken : bytes.length % 9 ≠ 0) (done : Run.run (step bufferSize) s schedule = some t) :
    ∃ completion u, (bytes ++ completion).length = 9 * (bytes.length / 9 + 1) ∧
      Run.run (step bufferSize) (s.withStream ⟨bytes ++ completion, true⟩) schedule = some u ∧
      u.results = t.results := by
  induction schedule generalizing s bytes with
  | nil =>
    cases Option.some.inj done
    refine ⟨List.replicate (9 - bytes.length % 9) 0, _, ?_, rfl, rfl⟩
    rw [List.length_append, List.length_replicate]
    omega
  | cons turn rest ih =>
    obtain ⟨u, first, others⟩ := (Run.run_cons_some _).mp done
    rcases step_withStream first with ⟨same, frame⟩ | ⟨srcVertex, dstVertex, reads, frame⟩
    · obtain ⟨completion, v, size, run, results⟩ := ih (same.trans unread) broken others
      exact ⟨completion, v, size, (Run.run_cons_some _).mpr ⟨_, frame _, run⟩, results⟩
    · rw [unread] at reads frame
      by_cases whole : 9 ≤ bytes.length
      · obtain ⟨edge, left, short, read, -⟩ := readRecord_append whole [] srcVertex dstVertex
        rw [read] at reads frame
        obtain ⟨completion, v, size, run, results⟩ := ih reads (by omega) others
        obtain ⟨edge', left', short', read', longer⟩ :=
          readRecord_append whole completion srcVertex dstVertex
        obtain ⟨same, tail⟩ := Prod.mk.inj (read.symm.trans read')
        cases same
        cases tail
        have step := frame ⟨bytes ++ completion, true⟩ (by rw [longer])
        rw [longer] at step
        refine ⟨completion, v, ?_, (Run.run_cons_some _).mpr ⟨_, step, run⟩, results⟩
        rw [List.length_append] at size ⊢
        omega
      · obtain ⟨completion, edge, size, read, longer⟩ :=
          readRecord_partial (by omega) (Nat.lt_of_not_le whole) srcVertex dstVertex
        rw [read] at reads frame
        have step := frame ⟨bytes ++ completion, true⟩ (by rw [longer])
        rw [longer] at step
        obtain ⟨last, run⟩ := run_exhausted (reads ▸ rfl) ⟨[], true⟩ rfl others
        refine ⟨completion, _, ?_, (Run.run_cons_some _).mpr ⟨_, step, run⟩, rfl⟩
        rw [List.length_append]
        omega

end Simulation

section Records

variable {bufferSize : Nat} {s : BufferedEdgeInput}

/-- Calls that do not exceed the whole records return them in order, on a file of
any length. -/
theorem first_records (positive : 1 ≤ bufferSize) {header body : List UInt8}
    (hheader : header.length = 12) {schedule : List Turn}
    (reached : Run.run (step bufferSize) (new bufferSize (header ++ body)) schedule = some s)
    (few : s.results.length ≤ (records body).length) :
    s.results = ((records body).take s.results.length).map some := by
  obtain ⟨-, count⟩ := records_take body
  by_cases aligned : body.length % 9 = 0
  · have size : body.length = 9 * (body.length / 9) := by omega
    obtain ⟨-, delivered, -⟩ := delivers_every_record positive hheader size reached
    exact delivered.results_eq few
  · obtain ⟨completion, t, size, run, same⟩ :=
      run_completed (new_stream bufferSize body hheader) aligned reached
    have longer : (new bufferSize (header ++ body)).withStream ⟨body ++ completion, true⟩ =
        new bufferSize (header ++ (body ++ completion)) := by
      rw [new_eq bufferSize hheader, new_eq bufferSize hheader]
      rfl
    rw [longer] at run
    obtain ⟨total, delivered, -⟩ := delivers_every_record positive hheader size run
    have results := delivered.results_eq (by rw [same, total]; omega)
    obtain ⟨extra, split⟩ := records_prefix_append body completion
    rw [same, ← split, List.take_append_of_le_length few] at results
    exact results

end Records

end Zeppelin.Stream.BufferedEdgeInput
