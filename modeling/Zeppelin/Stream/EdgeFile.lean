import Zeppelin.Machine.Bytes
import Mathlib.Tactic.Ring

/-! Binary edge streams as `BufferedEdgeInput` reads them. A file is a 12-byte
header and 9-byte records: one byte for the tag and two little-endian vertices.
A read that finds too few bytes stores those it found, fails, and makes every
later read fail without storing anything. -/
namespace Zeppelin.Stream

/-- `std::tuple<uint32_t, uint32_t, uint8_t>`. -/
structure Edge where
  src : UInt32
  dst : UInt32
  tag : UInt8
  deriving DecidableEq

/-- The tag 1 marks a deletion. -/
def Edge.isDelete (update : Edge) : Bool := update.tag = 1

/-- The updates of one kind of edge alternate, starting with an insertion. -/
def AlternatesOn (belongs : Edge → Bool) (stream : List Edge) : Prop :=
  ∀ (i : Nat) (deleted : Bool), ((stream.filter belongs).map Edge.isDelete)[i]? = some deleted →
    deleted = decide (i % 2 = 1)

/-- The unread bytes of an `ifstream` and its `good()`: no read has met the end. -/
structure IStream where
  rest : List UInt8
  good : Bool

namespace IStream

def read (s : IStream) (count : Nat) : List UInt8 × IStream :=
  if s.good then (s.rest.take count, ⟨s.rest.drop count, count ≤ s.rest.length⟩) else ([], s)

/-- Reads over the bytes of a variable of `width` bytes. -/
def readOver (s : IStream) (width old : Nat) : Nat × IStream :=
  let (got, next) := s.read width
  (fromLittleEndian (got ++ (littleEndian width old).drop got.length), next)

/-- One iteration of the loop of `ingest`. The two vertices are uninitialised
locals; `srcVertex` and `dstVertex` are their indeterminate values. -/
def readRecord (s : IStream) (srcVertex dstVertex : UInt32) : Option Edge × IStream :=
  match s.read 1 with
  | ([tag], next) =>
    let (src, next) := next.readOver 4 srcVertex.toNat
    let (dst, next) := next.readOver 4 dstVertex.toNat
    (some ⟨UInt32.ofNat src, UInt32.ofNat dst, tag⟩, next)
  | (_, next) => (none, next)

end IStream

/-- The complete records of the bytes behind the header. -/
def records : List UInt8 → List Edge
  | tag :: a :: b :: c :: d :: e :: f :: g :: h :: rest =>
    ⟨UInt32.ofNat (fromLittleEndian [a, b, c, d]), UInt32.ofNat (fromLittleEndian [e, f, g, h]), tag⟩ ::
      records rest
  | _ => []

theorem split_record {bytes : List UInt8} {k : Nat} (size : bytes.length = 9 * (k + 1)) :
    ∃ tag a b c d e f g h rest, bytes = tag :: a :: b :: c :: d :: e :: f :: g :: h :: rest ∧
      rest.length = 9 * k := by
  match bytes, size with
  | tag :: a :: b :: c :: d :: e :: f :: g :: h :: rest, size =>
    refine ⟨tag, a, b, c, d, e, f, g, h, rest, rfl, ?_⟩
    simp only [List.length_cons] at size
    omega

theorem records_length {bytes : List UInt8} {k : Nat} (size : bytes.length = 9 * k) :
    (records bytes).length = k := by
  induction k generalizing bytes with
  | zero =>
    obtain rfl := List.eq_nil_of_length_eq_zero size
    rfl
  | succ k ih =>
    obtain ⟨tag, a, b, c, d, e, f, g, h, rest, rfl, left⟩ := split_record size
    rw [records, List.length_cons, ih left]

/-- A whole record is read as it stands in the file, whatever the locals held. -/
theorem readRecord_some {s : IStream} {k : Nat} (good : s.good = true)
    (size : s.rest.length = 9 * (k + 1)) (srcVertex dstVertex : UInt32) :
    ∃ edge next, s.readRecord srcVertex dstVertex = (some edge, next) ∧ next.good = true ∧
      next.rest.length = 9 * k ∧ records s.rest = edge :: records next.rest := by
  obtain ⟨tag, a, b, c, d, e, f, g, h, rest, bytes, left⟩ := split_record size
  obtain ⟨all, _⟩ := s
  cases good
  cases bytes
  refine ⟨_, ⟨rest, true⟩, ?_, rfl, left, rfl⟩
  simp [IStream.readRecord, IStream.read, IStream.readOver, littleEndian]

theorem readRecord_none {s : IStream} (empty : s.rest = []) (srcVertex dstVertex : UInt32) :
    ∃ next, s.readRecord srcVertex dstVertex = (none, next) ∧ next.rest = [] := by
  obtain ⟨all, good⟩ := s
  cases empty
  cases good with
  | true => exact ⟨⟨[], false⟩, rfl, rfl⟩
  | false => exact ⟨⟨[], false⟩, rfl, rfl⟩

section Truncated

theorem records_of_short {bytes : List UInt8} (short : bytes.length < 9) : records bytes = [] := by
  match bytes, short with
  | [], _ => rfl
  | [_], _ => rfl
  | [_, _], _ => rfl
  | [_, _, _], _ => rfl
  | [_, _, _, _], _ => rfl
  | [_, _, _, _, _], _ => rfl
  | [_, _, _, _, _, _], _ => rfl
  | [_, _, _, _, _, _, _], _ => rfl
  | [_, _, _, _, _, _, _, _], _ => rfl

theorem records_append {first : List UInt8} {k : Nat} (size : first.length = 9 * k)
    (second : List UInt8) : records (first ++ second) = records first ++ records second := by
  induction k generalizing first with
  | zero =>
    obtain rfl := List.eq_nil_of_length_eq_zero size
    rfl
  | succ k ih =>
    obtain ⟨tag, a, b, c, d, e, f, g, h, rest, rfl, left⟩ := split_record size
    simp only [List.cons_append, records, ih left]

/-- The whole records and the rest of a file of any length. -/
theorem records_take (bytes : List UInt8) :
    records bytes = records (bytes.take (9 * (bytes.length / 9))) ∧
      (records bytes).length = bytes.length / 9 := by
  have front : (bytes.take (9 * (bytes.length / 9))).length = 9 * (bytes.length / 9) := by
    rw [List.length_take]
    omega
  have back : (bytes.drop (9 * (bytes.length / 9))).length < 9 := by
    rw [List.length_drop]
    omega
  have whole : records bytes = records (bytes.take (9 * (bytes.length / 9))) := by
    conv_lhs => rw [← List.take_append_drop (9 * (bytes.length / 9)) bytes]
    rw [records_append front, records_of_short back, List.append_nil]
  exact ⟨whole, by rw [whole, records_length front]⟩

/-- Bytes behind the last whole record, or behind what there is of the next one,
come after the records. -/
theorem records_prefix_append (bytes completion : List UInt8) :
    records bytes <+: records (bytes ++ completion) := by
  have front : (bytes.take (9 * (bytes.length / 9))).length = 9 * (bytes.length / 9) := by
    rw [List.length_take]
    omega
  conv_rhs => rw [← List.take_append_drop (9 * (bytes.length / 9)) bytes, List.append_assoc]
  rw [records_append front, (records_take bytes).1]
  exact List.prefix_append _ _

/-- A whole record is read in the same way whatever follows it. -/
theorem readRecord_append {bytes : List UInt8} (whole : 9 ≤ bytes.length)
    (completion : List UInt8) (srcVertex dstVertex : UInt32) :
    ∃ edge rest, rest.length + 9 = bytes.length ∧
      IStream.readRecord ⟨bytes, true⟩ srcVertex dstVertex = (some edge, ⟨rest, true⟩) ∧
      IStream.readRecord ⟨bytes ++ completion, true⟩ srcVertex dstVertex =
        (some edge, ⟨rest ++ completion, true⟩) := by
  match bytes, whole with
  | tag :: a :: b :: c :: d :: e :: f :: g :: h :: rest, _ =>
    refine ⟨⟨UInt32.ofNat (fromLittleEndian [a, b, c, d]), UInt32.ofNat (fromLittleEndian [e, f, g, h]),
      tag⟩, rest, rfl, ?_, ?_⟩
    · simp [IStream.readRecord, IStream.read, IStream.readOver, littleEndian]
    · simp [IStream.readRecord, IStream.read, IStream.readOver, littleEndian]

theorem readOver_enough {got : List UInt8} {width : Nat} (size : got.length = width)
    (more : List UInt8) (old : Nat) :
    IStream.readOver ⟨got ++ more, true⟩ width old = (fromLittleEndian got, ⟨more, true⟩) := by
  have all : (littleEndian width old).drop got.length = [] := by
    apply List.drop_eq_nil_of_le
    rw [littleEndian_length, size]
  have enough : width ≤ (got ++ more).length := by
    rw [List.length_append]
    omega
  simp only [IStream.readOver, IStream.read, if_true, List.take_left' size, List.drop_left' size,
    all, List.append_nil, enough, decide_true]

/-- A read that finds too few bytes keeps the old bytes behind them. -/
theorem readOver_short {got : List UInt8} {width : Nat} (size : got.length < width) (old : Nat) :
    IStream.readOver ⟨got, true⟩ width old =
      (fromLittleEndian (got ++ (littleEndian width old).drop got.length), ⟨[], false⟩) := by
  simp only [IStream.readOver, IStream.read, if_true, List.take_of_length_le size.le,
    List.drop_eq_nil_of_le size.le, Nat.not_le_of_lt size, decide_false]

theorem readRecord_cons (tag : UInt8) (vertices : List UInt8) (srcVertex dstVertex : UInt32) :
    IStream.readRecord ⟨tag :: vertices, true⟩ srcVertex dstVertex =
      let (src, next) := IStream.readOver ⟨vertices, true⟩ 4 srcVertex.toNat
      let (dst, next) := next.readOver 4 dstVertex.toNat
      (some ⟨UInt32.ofNat src, UInt32.ofNat dst, tag⟩, next) := by
  simp [IStream.readRecord, IStream.read]

/-- A file that ends inside the source: the destination is what its local held. -/
theorem readRecord_in_src (tag : UInt8) {vertices : List UInt8} (short : vertices.length < 4)
    (srcVertex dstVertex : UInt32) :
    ∃ completion edge, vertices.length + completion.length = 8 ∧
      IStream.readRecord ⟨tag :: vertices, true⟩ srcVertex dstVertex = (some edge, ⟨[], false⟩) ∧
      IStream.readRecord ⟨tag :: (vertices ++ completion), true⟩ srcVertex dstVertex =
        (some edge, ⟨[], true⟩) := by
  let src := vertices ++ (littleEndian 4 srcVertex.toNat).drop vertices.length
  let dst := littleEndian 4 dstVertex.toNat
  have size : src.length = 4 := by
    rw [List.length_append, List.length_drop, littleEndian_length]
    omega
  have last := readOver_enough (littleEndian_length 4 dstVertex.toNat) [] dstVertex.toNat
  rw [List.append_nil] at last
  refine ⟨(littleEndian 4 srcVertex.toNat).drop vertices.length ++ dst,
    ⟨UInt32.ofNat (fromLittleEndian src), UInt32.ofNat (fromLittleEndian dst), tag⟩, ?_, ?_, ?_⟩
  · rw [List.length_append, List.length_drop, littleEndian_length, littleEndian_length]
    omega
  · rw [readRecord_cons, readOver_short short]
    rfl
  · rw [readRecord_cons, ← List.append_assoc, readOver_enough size]
    simp only [dst, last]

/-- A file that ends inside the destination. -/
theorem readRecord_in_dst (tag : UInt8) {front back : List UInt8} (size : front.length = 4)
    (short : back.length < 4) (srcVertex dstVertex : UInt32) :
    ∃ completion edge, back.length + completion.length = 4 ∧
      IStream.readRecord ⟨tag :: (front ++ back), true⟩ srcVertex dstVertex =
        (some edge, ⟨[], false⟩) ∧
      IStream.readRecord ⟨tag :: (front ++ back ++ completion), true⟩ srcVertex dstVertex =
        (some edge, ⟨[], true⟩) := by
  let dst := back ++ (littleEndian 4 dstVertex.toNat).drop back.length
  have whole : dst.length = 4 := by
    rw [List.length_append, List.length_drop, littleEndian_length]
    omega
  have last := readOver_enough whole [] dstVertex.toNat
  rw [List.append_nil] at last
  refine ⟨(littleEndian 4 dstVertex.toNat).drop back.length,
    ⟨UInt32.ofNat (fromLittleEndian front), UInt32.ofNat (fromLittleEndian dst), tag⟩, ?_, ?_, ?_⟩
  · rw [List.length_drop, littleEndian_length]
    omega
  · rw [readRecord_cons, readOver_enough size]
    simp only [readOver_short short, dst]
  · rw [readRecord_cons, List.append_assoc, readOver_enough size]
    simp only [dst] at last
    simp only [last, dst]

/-- A record that the file breaks off is read as some whole record: the missing
bytes are those that the locals held. -/
theorem readRecord_partial {bytes : List UInt8} (started : 0 < bytes.length)
    (short : bytes.length < 9) (srcVertex dstVertex : UInt32) :
    ∃ completion edge, bytes.length + completion.length = 9 ∧
      IStream.readRecord ⟨bytes, true⟩ srcVertex dstVertex = (some edge, ⟨[], false⟩) ∧
      IStream.readRecord ⟨bytes ++ completion, true⟩ srcVertex dstVertex =
        (some edge, ⟨[], true⟩) := by
  match bytes, started with
  | tag :: vertices, _ =>
    rw [List.length_cons] at short ⊢
    by_cases first : vertices.length < 4
    · obtain ⟨completion, edge, size, read, longer⟩ :=
        readRecord_in_src tag first srcVertex dstVertex
      exact ⟨completion, edge, by omega, read, longer⟩
    · have front : (vertices.take 4).length = 4 := by
        rw [List.length_take]
        omega
      have back : (vertices.drop 4).length < 4 := by
        rw [List.length_drop]
        omega
      obtain ⟨completion, edge, size, read, longer⟩ :=
        readRecord_in_dst tag front back srcVertex dstVertex
      rw [List.take_append_drop] at read longer
      rw [List.length_drop] at size
      exact ⟨completion, edge, by omega, read, longer⟩

end Truncated

end Zeppelin.Stream
