import Zeppelin.Stream.EdgeFile
import Mathlib.Data.List.TakeWhile

/-! Text files as `std::getline` reads them. A line ends at a newline, which is
not part of it, or at the end of the file. -/
namespace Zeppelin.Stream

abbrev Line := List UInt8

def newline : UInt8 := 10

/-- `std::getline`. A line that the end of the file ends is returned, and the
stream is then at its end; without a byte left nothing is returned. -/
def IStream.getline (s : IStream) : Option Line × IStream :=
  if s.good && !s.rest.isEmpty then
    (some (s.rest.takeWhile (· ≠ newline)),
      ⟨(s.rest.dropWhile (· ≠ newline)).drop 1, s.rest.contains newline⟩)
  else (none, ⟨s.rest, false⟩)

/-- The lines of a text. -/
def lines : List UInt8 → List Line
  | [] => []
  | byte :: rest =>
    if byte = newline then [] :: lines rest
    else
      match lines rest with
      | [] => [[byte]]
      | line :: more => (byte :: line) :: more

theorem lines_split {bytes : List UInt8} (some_byte : bytes ≠ []) :
    lines bytes = bytes.takeWhile (· ≠ newline) ::
      lines ((bytes.dropWhile (· ≠ newline)).drop 1) := by
  induction bytes with
  | nil => contradiction
  | cons byte rest ih =>
    rw [lines]
    by_cases ends : byte = newline
    · rw [if_pos ends, List.takeWhile_cons_of_neg (by simp [ends]),
        List.dropWhile_cons_of_neg (by simp [ends]), List.drop_succ_cons, List.drop_zero]
    · rw [if_neg ends, List.takeWhile_cons_of_pos (by simp [ends]),
        List.dropWhile_cons_of_pos (by simp [ends])]
      cases rest with
      | nil => rfl
      | cons next rest => rw [ih (List.cons_ne_nil next rest)]

/-- While there are bytes the next line is read, and the last line leaves none. -/
theorem getline_some {s : IStream} (good : s.good = true) (left : s.rest ≠ []) :
    ∃ line next, s.getline = (some line, next) ∧ (next.good = true ∨ next.rest = []) ∧
      lines s.rest = line :: lines next.rest := by
  refine ⟨_, _, if_pos (by simp [good, left]), ?_, lines_split left⟩
  by_cases more : newline ∈ s.rest
  · exact Or.inl (List.contains_iff_mem.mpr more)
  · right
    have all : ∀ byte ∈ s.rest, decide (byte ≠ newline) = true := by
      intro byte member
      exact decide_eq_true fun same => more (same ▸ member)
    simp only [List.dropWhile_eq_nil_iff.mpr all, List.drop_nil]

theorem getline_none {s : IStream} (empty : s.rest = []) : s.getline = (none, ⟨[], false⟩) := by
  rw [IStream.getline, empty]
  exact if_neg (by simp)

end Zeppelin.Stream
