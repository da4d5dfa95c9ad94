import Zeppelin.Machine.Cursor
import Zeppelin.Machine.Decimal
import Zeppelin.Machine.Word
import Zeppelin.Stream.TextFile

/-! `graph_stream.h` of the Aspen tools, a text reader over one raw buffer. A cell
of the buffer that is not filled from the file, or whose byte a refill leaves
behind, is `none`. Reading such a cell or one past the buffer has no result, and
neither has a `memcpy` whose ranges overlap. -/
namespace Zeppelin.Stream

open Decimal (isDigit isSpace)

/-- `>>` into an unsigned variable of `bits` bits. No digit and too large a number
are failures, which store 0 and the largest value; a stream that is not good
stores nothing. Signs, which the header has not, are left out. -/
def IStream.extract (s : IStream) (bits old : Nat) : Nat × IStream :=
  if s.good then
    let text := s.rest.dropWhile isSpace
    let number := text.takeWhile isDigit
    let rest := text.dropWhile isDigit
    if number = [] then (0, ⟨rest, false⟩)
    else if 2 ^ bits ≤ Decimal.value number then (2 ^ bits - 1, ⟨rest, false⟩)
    else (Decimal.value number, ⟨rest, !rest.isEmpty⟩)
  else (old, s)

structure GraphStream where
  bufSize : UInt32
  /-- The cells from `start_buf` on. -/
  cells : List (Option UInt8)
  /-- The offset of `buf` from `start_buf`. -/
  buf : Nat
  eof : Bool
  fileStream : IStream
  nodes : UInt32
  edges : UInt64

namespace GraphStream

/-- The cells behind `start` after `file_stream.read` of `count` bytes. -/
def filled (got : List UInt8) (count : Nat) : List (Option UInt8) :=
  got.map some ++ List.replicate (count - got.length) none

/-- The constructor. `nodes` and `edges` are the indeterminate values of the members. -/
def «open» (file : List UInt8) (b : UInt32) (nodes : UInt32) (edges : UInt64) : GraphStream :=
  let (nodes, fileStream) := IStream.extract ⟨file, true⟩ 32 nodes.toNat
  let (edges, fileStream) := fileStream.extract 64 edges.toNat
  let (got, fileStream) := fileStream.read b.toNat
  { bufSize := b, cells := filled got b.toNat, buf := 0, eof := !fileStream.good, fileStream
    nodes := UInt32.ofNat nodes, edges := UInt64.ofNat edges }

def advance (s : GraphStream) (count : Nat) : GraphStream := { s with buf := s.buf + count }

end GraphStream

section Format

def tab : UInt8 := 9

/-- One line: a digit and two numbers of at most ten digits, with tabs between. -/
structure UpdateLine where
  u : UInt8
  a : Decimal.Numeral (2 ^ 32)
  b : Decimal.Numeral (2 ^ 32)
  digit : isDigit u = true
  aShort : a.bytes.length ≤ 10
  bShort : b.bytes.length ≤ 10

/-- The bytes before the newline. -/
def UpdateLine.body (line : UpdateLine) : List UInt8 :=
  line.u :: tab :: line.a.bytes ++ tab :: line.b.bytes

def linesText (lines : List UpdateLine) : List UInt8 :=
  lines.flatMap fun line => line.body ++ [newline]

/-- A header `N M` and `M` lines. -/
structure UpdateFile where
  nodes : Decimal.Numeral (2 ^ 32)
  edges : Decimal.Numeral (2 ^ 64)
  lines : List UpdateLine
  counted : edges.value = lines.length

def UpdateFile.text (file : UpdateFile) : List UInt8 :=
  file.nodes.bytes ++ 32 :: file.edges.bytes ++ newline :: linesText file.lines

end Format

namespace GraphStream

/-- The cells from `buf` on. -/
def unread (s : GraphStream) : List (Option UInt8) := s.cells.drop s.buf

section Cursor

variable {s : GraphStream} {tail : List (Option UInt8)}

theorem unread_advance (front : List (Option UInt8)) (unread : s.unread = front ++ tail) :
    (s.advance front.length).unread = tail :=
  Cursor.drop_add front unread

end Cursor

section Invariant

/-- `text` is still to be parsed: its first part `window` stands in the buffer from
`buf` on, and the rest is in the file. Until the end of the file is met the window
reaches to the end of the buffer. -/
structure Holds (s : GraphStream) (window text : List UInt8) : Prop where
  size : s.cells.length = s.bufSize.toNat
  within : s.buf ≤ s.bufSize.toNat
  split : window ++ s.fileStream.rest = text
  cells : ∃ spare, s.unread = window.map some ++ List.replicate spare none ∧
    (s.eof = false → spare = 0)
  more : s.eof = false → s.fileStream.good = true
  done : s.eof = true → s.fileStream.rest = []

variable {s : GraphStream} {window text : List UInt8}

theorem Holds.advance {front : List UInt8} (holds : Holds s (front ++ window) (front ++ text)) :
    Holds (s.advance front.length) window text := by
  obtain ⟨spare, cells, full⟩ := holds.cells
  have fits : s.unread.length = s.bufSize.toNat - s.buf := by
    rw [unread, List.length_drop, holds.size]
  rw [cells, List.map_append, List.append_assoc, List.length_append, List.length_map] at fits
  have inside := holds.within
  have passed : (s.advance (front.map some).length).unread =
      window.map some ++ List.replicate spare none :=
    unread_advance _ (by rw [cells, List.map_append, List.append_assoc])
  rw [List.length_map] at passed
  refine ⟨holds.size, ?_, ?_, ⟨spare, passed, full⟩, holds.more, holds.done⟩
  · change s.buf + front.length ≤ s.bufSize.toNat
    omega
  · have split := holds.split
    rw [List.append_assoc] at split
    exact List.append_cancel_left split

end Invariant

section Header

end Header

end GraphStream

end Zeppelin.Stream
