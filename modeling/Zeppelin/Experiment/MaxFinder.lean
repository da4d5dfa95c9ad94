import Mathlib.Algebra.Order.Field.Rat
import Mathlib.Tactic.FieldSimp
import Zeppelin.Machine.Cursor
import Zeppelin.Machine.Decimal
import Zeppelin.Machine.Run
import Zeppelin.Machine.Word
import Zeppelin.Stream.TextFile

/-! `max_finder.cpp`, which reports the peak memory of a cleaned `top` log. A
`double` is an exact rational. Reading past the end of a string, an exception of
`substr` or `stod` and a `long long` that overflows have no result. -/
namespace Zeppelin.Experiment

open Decimal (isDigit isSpace)
open Zeppelin.Stream (Line)

namespace MaxFinder

def gb : ℚ := 2 ^ 30
def mb : ℚ := 2 ^ 20
def kb : ℚ := 2 ^ 10

def space : UInt8 := 32
def point : UInt8 := 46

section Strings

/-- `s[i]`, the null character at the end of the string. -/
def charAt (s : Line) (i : Nat) : Option UInt8 := (s ++ [0])[i]?

/-- The loops that move `i` on while a character is skipped. -/
def skipLoop (skipped : UInt8 → Bool) (s : Line) : Nat → Nat → Option Nat
  | 0, _ => none
  | fuel + 1, i => do
    let c ← charAt s i
    if skipped c then skipLoop skipped s fuel (i + 1) else some i

/-- Behind the null character there is nothing to read, so the fuel is enough. -/
def skip (skipped : UInt8 → Bool) (s : Line) (i : Nat) : Option Nat :=
  skipLoop skipped s (s.length + 2) i

def substr (s : Line) (i : Nat) : Option Line := if i ≤ s.length then some (s.drop i) else none

/-- An optional sign; `true` for a minus. -/
def signOf : Line → Bool × Line
  | [] => (false, [])
  | c :: rest => if c = 45 then (true, rest) else if c = 43 then (false, rest) else (false, c :: rest)

/-- The digits behind an optional point. -/
def fractionOf : Line → Line × Line
  | [] => ([], [])
  | c :: rest =>
    if c = point then (rest.takeWhile isDigit, rest.dropWhile isDigit) else ([], c :: rest)

/-- The power of ten of an optional exponent, which needs a digit. -/
def exponentOf : Line → ℚ × Line
  | [] => (1, [])
  | c :: rest =>
    if c = 101 ∨ c = 69 then
      let (negative, digits) := signOf rest
      let number := digits.takeWhile isDigit
      let power : ℚ := 10 ^ Decimal.value number
      if number = [] then (1, c :: rest)
      else (if negative then power⁻¹ else power, digits.dropWhile isDigit)
    else (1, c :: rest)

/-- `std::stod` and the number of characters that it has read. Without a digit it
throws. Hexadecimal numbers, infinities and not-a-numbers are left out. -/
def stod (text : Line) : Option (ℚ × Nat) :=
  let (negative, body) := signOf (text.dropWhile isSpace)
  let whole := body.takeWhile isDigit
  let (fraction, rest) := fractionOf (body.dropWhile isDigit)
  if whole ++ fraction = [] then none
  else
    let (power, rest) := exponentOf rest
    let magnitude := (Decimal.value (whole ++ fraction) : ℚ) / 10 ^ fraction.length * power
    some (if negative then -magnitude else magnitude, text.length - rest.length)

end Strings

/-- The `switch` over the character behind a number. -/
def scale (c : UInt8) (x : ℚ) : ℚ :=
  if c = space then x * kb
  else if c = 103 then x * gb
  else if c = 109 then x + mb
  else x

/-- One of the three copies of the code that reads a number and its unit. -/
def readField (s : Line) (i : Nat) : Option (ℚ × Nat) := do
  let text ← substr s i
  let (x, charsRead) ← stod text
  let i := i + charsRead
  let c ← charAt s i
  some (scale c x, i)

/-- VIRT, RES and SWAP. -/
def extract (s : Line) : Option (ℚ × ℚ × ℚ) := do
  let i ← skip (· = space) s 0
  let i ← skip (· ≠ space) s i
  let i ← skip (· ≠ space) s i
  let (virt, i) ← readField s i
  let i ← skip (· = space) s (i + 1)
  let (res, i) ← readField s i
  let i ← skip (· = space) s (i + 1)
  let (swap, _) ← readField s i
  some (virt, res, swap)

/-- Rounds towards zero. -/
def truncate (x : ℚ) : Int := x.num.tdiv x.den

/-- The cast to `long long`. -/
def toLongLong (x : ℚ) : Option Int :=
  if Word.FitsSigned 64 (truncate x) then some (truncate x) else none

def addLongLong (x y : Int) : Option Int := if Word.FitsSigned 64 (x + y) then some (x + y) else none

structure Peak where
  virt : Int := 0
  res : Int := 0
  swap : Int := 0
  deriving DecidableEq

/-- The lines that `main` prints. -/
def Peak.print (peak : Peak) : List String :=
  ["VIRT " ++ toString peak.virt, "RES  " ++ toString peak.res, "SWAP " ++ toString peak.swap]

/-- The body of the loop of `main`. -/
def step (peak : Peak) (s : Line) : Option Peak := do
  let (virt, res, swap) ← extract s
  let virt ← toLongLong virt
  let res ← toLongLong res
  let swap ← toLongLong swap
  let sum ← addLongLong res swap
  let best ← addLongLong peak.res peak.swap
  let peak := { peak with virt := max virt peak.virt }
  some (if sum > best then { peak with res, swap } else peak)

/-- The argument holds the lines that `getline` reads from `std::cin`. -/
def main (log : List Line) : Option (List String) := (Run.run step {} log).map Peak.print

section Format

inductive Suffix where
  | none
  | m
  | g
  deriving DecidableEq

def Suffix.bytes : Suffix → Line
  | none => []
  | m => [109]
  | g => [103]

/-- The unit that a suffix stands for. -/
def Suffix.unit : Suffix → ℚ
  | none => kb
  | m => mb
  | g => gb

/-- A decimal number with its suffix and `gap + 1` spaces behind it. -/
structure Field where
  whole : Line
  fraction : Option Line
  suffix : Suffix
  gap : Nat
  wholeDigits : Decimal.Digits whole
  fractionDigits : ∀ digits ∈ fraction, Decimal.Digits digits
  nonempty : whole ++ fraction.getD [] ≠ []

namespace Field

variable (field : Field)

/-- The number without its suffix. -/
def digits : Line := field.whole ++ (field.fraction.map (point :: ·)).getD []

def text : Line := field.digits ++ field.suffix.bytes ++ List.replicate (field.gap + 1) space

def number : ℚ :=
  Decimal.value (field.whole ++ field.fraction.getD []) / 10 ^ (field.fraction.getD []).length

/-- The memory that the field reports, in bytes. -/
def memory : ℚ := field.number * field.suffix.unit

def truncated : Int := truncate field.memory

end Field

/-- Spaces, a PID, the three fields and whatever follows. -/
structure LogLine where
  indent : Nat
  pid : Line
  gap : Nat
  virt : Field
  res : Field
  swap : Field
  rest : Line
  someId : pid ≠ []
  noSpace : ∀ byte ∈ pid, byte ≠ space

def LogLine.text (line : LogLine) : Line :=
  List.replicate line.indent space ++ (line.pid ++ (List.replicate (line.gap + 1) space ++
    (line.virt.text ++ (line.res.text ++ (line.swap.text ++ line.rest)))))

/-- RES and SWAP together, truncated. -/
def LogLine.total (line : LogLine) : Int := line.res.truncated + line.swap.truncated

end Format

section Scanning

variable {s tail : Line} {i : Nat}

theorem charAt_eq {c : UInt8} (there : s.drop i = c :: tail) : charAt s i = some c := by
  have read := Cursor.getElem?_eq there
  rw [charAt, List.getElem?_append_left (List.getElem?_eq_some_iff.mp read).1, read]

theorem skipLoop_eq {skipped : UInt8 → Bool} {front : Line} {stop : UInt8} {fuel : Nat}
    (there : s.drop i = front ++ stop :: tail) (all : ∀ c ∈ front, skipped c = true)
    (ends : skipped stop = false) (enough : front.length < fuel) :
    skipLoop skipped s fuel i = some (i + front.length) := by
  induction front generalizing i fuel with
  | nil =>
    obtain ⟨fuel, rfl⟩ := Nat.exists_eq_succ_of_ne_zero enough.ne'
    rw [skipLoop, charAt_eq there]
    simp [ends]
  | cons c front ih =>
    obtain ⟨fuel, rfl⟩ := Nat.exists_eq_succ_of_ne_zero (Nat.ne_zero_of_lt enough)
    have next := ih (Cursor.drop_succ there) (fun d member => all d (List.mem_cons_of_mem c member))
      (Nat.lt_of_succ_lt_succ enough)
    rw [skipLoop, charAt_eq there]
    simp only [Option.bind_eq_bind, Option.bind_some, all c (List.mem_cons_self ..), if_true, next,
      List.length_cons, Nat.add_assoc, Nat.add_comm 1]

theorem skip_eq (skipped : UInt8 → Bool) (front : Line) {stop : UInt8}
    (there : s.drop i = front ++ stop :: tail) (all : ∀ c ∈ front, skipped c = true)
    (ends : skipped stop = false) : skip skipped s i = some (i + front.length) := by
  refine skipLoop_eq there all ends ?_
  have fits := Cursor.length_le there
  omega

end Scanning

section Numbers

/-- The character that the `switch` looks at. -/
def Suffix.head : Suffix → UInt8
  | none => space
  | m => 109
  | g => 103

/-- It ends the number. -/
theorem Suffix.head_ends (suffix : Suffix) :
    isDigit suffix.head = false ∧ suffix.head ≠ point ∧ ¬(suffix.head = 101 ∨ suffix.head = 69) := by
  cases suffix <;> decide

namespace Field

variable (field : Field) (rest : Line)

/-- The spaces behind that character. -/
def spaces : Line := List.replicate (field.gap + field.suffix.bytes.length) space

theorem text_append :
    field.text ++ rest = field.digits ++ field.suffix.head :: (field.spaces ++ rest) := by
  rw [text, spaces, List.append_assoc, List.append_assoc, ← List.append_assoc field.suffix.bytes]
  congr 1
  cases field.suffix <;> rfl

theorem spaces_blank : ∀ c ∈ field.spaces, c = space := fun _ => List.eq_of_mem_replicate

/-- A number starts with a digit or the point. -/
theorem digits_cons : ∃ c tail, field.digits = c :: tail ∧ (isDigit c = true ∨ c = point) := by
  rw [digits]
  cases whole : field.whole with
  | nil =>
    cases fraction : field.fraction with
    | none =>
      have nonempty := field.nonempty
      rw [whole, fraction] at nonempty
      exact absurd rfl nonempty
    | some digits => exact ⟨point, digits, rfl, Or.inr rfl⟩
  | cons c tail =>
    refine ⟨c, _, List.cons_append, Or.inl (field.wholeDigits c ?_)⟩
    rw [whole]
    exact List.mem_cons_self ..

/-- Such a character is neither skipped nor a sign. -/
theorem first_plain {c : UInt8} (first : isDigit c = true ∨ c = point) :
    isSpace c = false ∧ c ≠ 45 ∧ c ≠ 43 ∧ c ≠ space := by
  rcases first with digit | rfl
  · refine ⟨Decimal.not_isSpace digit, ?_, ?_, ?_⟩ <;>
    · rintro rfl
      exact absurd digit (by decide)
  · decide

theorem fractionOf_eq :
    fractionOf ((field.fraction.map (point :: ·)).getD [] ++ field.suffix.head :: rest) =
      (field.fraction.getD [], field.suffix.head :: rest) := by
  obtain ⟨ends, noPoint, -⟩ := field.suffix.head_ends
  cases fraction : field.fraction with
  | none => exact if_neg noPoint
  | some digits =>
    have numeral := field.fractionDigits digits fraction
    change fractionOf (point :: (digits ++ field.suffix.head :: rest)) = _
    rw [fractionOf, if_pos rfl, Decimal.takeWhile_numeral numeral ends,
      Decimal.dropWhile_numeral numeral ends]
    rfl

/-- A character that is no digit follows the digits before the point. -/
theorem after_whole : ∃ c tail,
    (field.fraction.map (point :: ·)).getD [] ++ field.suffix.head :: rest = c :: tail ∧
      isDigit c = false := by
  cases field.fraction with
  | none => exact ⟨_, _, rfl, field.suffix.head_ends.1⟩
  | some digits => exact ⟨point, _, rfl, by decide⟩

theorem stod_eq {blanks : Line} (blank : ∀ c ∈ blanks, isSpace c = true) :
    stod (blanks ++ (field.digits ++ field.suffix.head :: rest)) =
      some (field.number, blanks.length + field.digits.length) := by
  obtain ⟨c, tail, digits, first⟩ := field.digits_cons
  obtain ⟨notSpace, notMinus, notPlus, -⟩ := first_plain first
  have body : (blanks ++ (field.digits ++ field.suffix.head :: rest)).dropWhile isSpace =
      field.digits ++ field.suffix.head :: rest := by
    rw [List.dropWhile_append_of_pos blank, digits, List.cons_append,
      List.dropWhile_cons_of_neg (by simp [notSpace])]
  have unsigned : signOf (field.digits ++ field.suffix.head :: rest) =
      (false, field.digits ++ field.suffix.head :: rest) := by
    rw [digits, List.cons_append, signOf, if_neg notMinus, if_neg notPlus]
  obtain ⟨next, behind, split, ends⟩ := field.after_whole rest
  have fraction := field.fractionOf_eq rest
  have whole : field.digits ++ field.suffix.head :: rest = field.whole ++ next :: behind := by
    rw [Field.digits, List.append_assoc, split]
  have noExponent : exponentOf (field.suffix.head :: rest) = (1, field.suffix.head :: rest) :=
    if_neg field.suffix.head_ends.2.2
  have length : (blanks ++ (field.digits ++ field.suffix.head :: rest)).length -
      (field.suffix.head :: rest).length = blanks.length + field.digits.length := by
    rw [List.length_append, List.length_append]
    omega
  rw [split] at fraction
  simp only [stod, body, unsigned]
  simp only [whole, Decimal.takeWhile_numeral field.wholeDigits ends,
    Decimal.dropWhile_numeral field.wholeDigits ends, fraction, noExponent, field.nonempty, if_false,
    mul_one, Bool.false_eq_true]
  rw [← whole, length]
  rfl

/-- What the code makes of the field. -/
def read : ℚ := scale field.suffix.head field.number

variable {field rest} {s blanks : Line} {i : Nat}

/-- One field is read wherever it stands, and `i` is left at its suffix. -/
theorem readField_eq (there : s.drop i = blanks ++ (field.text ++ rest))
    (blank : ∀ c ∈ blanks, c = space) :
    ∃ next, readField s i = some (field.read, next) ∧ s.drop (next + 1) = field.spaces ++ rest := by
  rw [text_append] at there
  have inside : i ≤ s.length := by
    by_contra outside
    rw [List.drop_eq_nil_of_le (Nat.le_of_not_le outside)] at there
    simp at there
  have isBlank : ∀ c ∈ blanks, isSpace c = true := by
    intro c member
    rw [blank c member]
    decide
  have number := field.stod_eq (field.spaces ++ rest) isBlank
  rw [← there] at number
  have reached : s.drop (i + (blanks.length + field.digits.length)) =
      field.suffix.head :: (field.spaces ++ rest) := by
    rw [← List.length_append]
    exact Cursor.drop_add _ (by rw [there, List.append_assoc])
  refine ⟨i + (blanks.length + field.digits.length), ?_, Cursor.drop_succ reached⟩
  simp only [readField, substr, if_pos inside, Option.bind_eq_bind, Option.bind_some, number,
    charAt_eq reached]
  rfl

/-- The spaces between two fields are skipped up to the number. -/
theorem skip_blanks (there : s.drop i = blanks ++ (field.text ++ rest))
    (blank : ∀ c ∈ blanks, c = space) :
    ∃ next, skip (· = space) s i = some next ∧ s.drop next = [] ++ (field.text ++ rest) := by
  obtain ⟨c, tail, digits, first⟩ := field.digits_cons
  have start : ∃ more, field.text ++ rest = c :: more := by
    rw [text_append, digits]
    exact ⟨_, rfl⟩
  obtain ⟨more, start⟩ := start
  refine ⟨_, skip_eq _ blanks (by rw [there, start]) ?_ ?_, Cursor.drop_add _ there⟩
  · intro c member
    exact decide_eq_true (blank c member)
  · exact decide_eq_false (first_plain first).2.2.2

variable (field)

/-- A decimal fraction is never `2 ^ 20 / (2 ^ 20 - 1)`: 3 divides the denominator. -/
theorem add_ne_mul : field.number + mb ≠ field.number * mb := by
  intro same
  rw [number, mb] at same
  generalize Decimal.value (field.whole ++ field.fraction.getD []) = mantissa at same
  generalize (field.fraction.getD []).length = places at same
  have power : (10 : ℚ) ^ places ≠ 0 := by positivity
  field_simp at same
  have exact : mantissa + 10 ^ places * 2 ^ 20 = mantissa * 2 ^ 20 := by exact_mod_cast same
  have remainder : 10 ^ places % 3 = 1 := by
    rw [Nat.pow_mod, Nat.one_pow]
  omega

theorem read_eq_memory_iff : field.read = field.memory ↔ field.suffix ≠ .m := by
  constructor
  · intro same suffix
    rw [read, memory, suffix] at same
    exact field.add_ne_mul same
  · intro other
    rw [read, memory]
    cases suffix : field.suffix with
    | none => rfl
    | m => exact absurd suffix other
    | g => rfl

end Field

/-- The PID and the spaces before it are skipped; the third loop stays where it is. -/
theorem skip_pid (line : LogLine) :
    ∃ i j, skip (· = space) line.text 0 = some i ∧ skip (· ≠ space) line.text i = some j ∧
      skip (· ≠ space) line.text j = some j ∧
      line.text.drop j = List.replicate (line.gap + 1) space ++
        (line.virt.text ++ (line.res.text ++ (line.swap.text ++ line.rest))) := by
  obtain ⟨first, pid, id⟩ := List.exists_cons_of_ne_nil line.someId
  have notSpace : first ≠ space := line.noSpace first (by rw [id]; exact List.mem_cons_self ..)
  have start : line.text.drop 0 = List.replicate line.indent space ++ (line.pid ++
      (List.replicate (line.gap + 1) space ++
        (line.virt.text ++ (line.res.text ++ (line.swap.text ++ line.rest))))) := rfl
  have atPid := Cursor.drop_add _ start
  have atGap := Cursor.drop_add _ atPid
  have indented := skip_eq (· = space) _ (by rw [start, id]; rfl)
    (fun c member => decide_eq_true (List.eq_of_mem_replicate member)) (decide_eq_false notSpace)
  have passed := skip_eq (· ≠ space) line.pid atPid
    (fun c member => decide_eq_true (line.noSpace c member)) (by decide)
  have stays := skip_eq (· ≠ space) [] atGap nofun (by decide)
  exact ⟨_, _, indented, passed, stays, atGap⟩

/-- The three fields are read without leaving the line. -/
theorem extract_eq (line : LogLine) :
    extract line.text = some (line.virt.read, line.res.read, line.swap.read) := by
  obtain ⟨i, j, indented, passed, stays, atVirt⟩ := skip_pid line
  obtain ⟨virtEnd, virt, behindVirt⟩ :=
    Field.readField_eq atVirt fun _ => List.eq_of_mem_replicate
  obtain ⟨resStart, toRes, atRes⟩ := Field.skip_blanks behindVirt line.virt.spaces_blank
  obtain ⟨resEnd, res, behindRes⟩ := Field.readField_eq atRes nofun
  obtain ⟨swapStart, toSwap, atSwap⟩ := Field.skip_blanks behindRes line.res.spaces_blank
  obtain ⟨swapEnd, swap, -⟩ := Field.readField_eq atSwap nofun
  simp only [extract, indented, passed, stays, virt, toRes, res, toSwap, swap, Option.bind_eq_bind,
    Option.bind_some]

end Numbers

section Peaks

/-- No suffix of the line is `m`. -/
def LogLine.Plain (line : LogLine) : Prop :=
  line.virt.suffix ≠ .m ∧ line.res.suffix ≠ .m ∧ line.swap.suffix ≠ .m

/-- The numbers that `main` computes with are in range. -/
def LogLine.InRange (line : LogLine) : Prop := line.virt.truncated < 2 ^ 63 ∧ line.total < 2 ^ 63

/-- The extracted memory of a line. -/
def LogLine.memory (line : LogLine) : ℚ × ℚ × ℚ :=
  (line.virt.memory, line.res.memory, line.swap.memory)

theorem extract_eq_memory_iff (line : LogLine) :
    extract line.text = some line.memory ↔ line.Plain := by
  rw [extract_eq, LogLine.memory, Option.some.injEq, Prod.mk.injEq, Prod.mk.injEq,
    Field.read_eq_memory_iff, Field.read_eq_memory_iff, Field.read_eq_memory_iff, LogLine.Plain]

theorem Field.truncated_nonneg (field : Field) : 0 ≤ field.truncated := by
  have unit : 0 ≤ field.suffix.unit := by
    cases field.suffix <;> simp [Suffix.unit, kb, mb, gb]
  have number : 0 ≤ field.number := div_nonneg (Nat.cast_nonneg _) (by positivity)
  exact Int.tdiv_nonneg (Rat.num_nonneg.mpr (mul_nonneg number unit)) (Int.natCast_nonneg _)

/-- The peak after one more line. -/
def Peak.improve (peak : Peak) (line : LogLine) : Peak :=
  let peak := { peak with virt := max line.virt.truncated peak.virt }
  if line.total > peak.res + peak.swap then
    { peak with res := line.res.truncated, swap := line.swap.truncated }
  else peak

theorem fitsSigned_iff {x : Int} (nonneg : 0 ≤ x) : Word.FitsSigned 64 x ↔ x < 2 ^ 63 := by
  constructor
  · exact And.right
  · intro below
    exact ⟨by omega, below⟩

theorem toLongLong_eq_some_iff {field : Field} {x : Int} :
    toLongLong field.memory = some x ↔ field.truncated < 2 ^ 63 ∧ x = field.truncated := by
  rw [toLongLong, Option.ite_none_right_eq_some, Option.some.injEq, eq_comm (a := truncate _)]
  exact and_congr_left' (fitsSigned_iff field.truncated_nonneg)

theorem addLongLong_eq_some_iff {x y sum : Int} :
    addLongLong x y = some sum ↔ Word.FitsSigned 64 (x + y) ∧ sum = x + y := by
  rw [addLongLong, Option.ite_none_right_eq_some, Option.some.injEq, eq_comm (a := x + y)]

/-- What one iteration does, and when it is defined. -/
theorem step_eq_some_iff {peak next : Peak} {line : LogLine} (plain : line.Plain)
    (fits : Word.FitsSigned 64 (peak.res + peak.swap)) :
    step peak line.text = some next ↔ line.InRange ∧ next = peak.improve line := by
  have res := line.res.truncated_nonneg
  have swap := line.swap.truncated_nonneg
  simp only [step, (extract_eq_memory_iff line).mpr plain, LogLine.memory, Option.bind_eq_bind,
    Option.bind_some, Option.bind_eq_some_iff, toLongLong_eq_some_iff, addLongLong_eq_some_iff,
    Option.some.injEq]
  constructor
  · rintro ⟨_, ⟨low, rfl⟩, _, ⟨-, rfl⟩, _, ⟨-, rfl⟩, _, ⟨sum, rfl⟩, _, ⟨-, rfl⟩, rfl⟩
    exact ⟨⟨low, sum.2⟩, rfl⟩
  · rintro ⟨⟨low, total⟩, rfl⟩
    rw [LogLine.total] at total
    exact ⟨_, ⟨low, rfl⟩, _, ⟨by omega, rfl⟩, _, ⟨by omega, rfl⟩, _,
      ⟨(fitsSigned_iff (by omega)).mpr total, rfl⟩, _, ⟨fits, rfl⟩, rfl⟩

theorem LogLine.total_nonneg (line : LogLine) : 0 ≤ line.total :=
  Int.add_nonneg line.res.truncated_nonneg line.swap.truncated_nonneg

theorem improve_virt (peak : Peak) (line : LogLine) :
    (peak.improve line).virt = max line.virt.truncated peak.virt := by
  rw [Peak.improve]
  split <;> rfl

/-- RES and SWAP are replaced together, by a line where they are larger. -/
theorem improve_cases (peak : Peak) (line : LogLine) :
    (peak.res + peak.swap < line.total ∧ (peak.improve line).res = line.res.truncated ∧
        (peak.improve line).swap = line.swap.truncated) ∨
      (line.total ≤ peak.res + peak.swap ∧ (peak.improve line).res = peak.res ∧
        (peak.improve line).swap = peak.swap) := by
  rw [Peak.improve]
  split
  next larger => exact Or.inl ⟨larger, rfl, rfl⟩
  next other => exact Or.inr ⟨Int.not_lt.mp other, rfl, rfl⟩

theorem fits_improve {peak : Peak} {line : LogLine} (inRange : line.InRange)
    (fits : Word.FitsSigned 64 (peak.res + peak.swap)) :
    Word.FitsSigned 64 ((peak.improve line).res + (peak.improve line).swap) := by
  obtain ⟨-, res, swap⟩ | ⟨-, res, swap⟩ := improve_cases peak line
  · rw [res, swap]
    exact (fitsSigned_iff line.total_nonneg).mpr inRange.2
  · rw [res, swap]
    exact fits

/-- A run is defined while every line is in range. -/
theorem run_eq_some_iff {peak last : Peak} {log : List LogLine} (plain : ∀ line ∈ log, line.Plain)
    (fits : Word.FitsSigned 64 (peak.res + peak.swap)) :
    Run.run step peak (log.map LogLine.text) = some last ↔
      (∀ line ∈ log, line.InRange) ∧ last = log.foldl Peak.improve peak := by
  induction log generalizing peak with
  | nil =>
    simp only [List.map_nil, Run.run, List.foldlM_nil, List.foldl_nil, List.not_mem_nil,
      false_implies, implies_true, true_and, Option.pure_def, Option.some.injEq]
    exact eq_comm
  | cons line log ih =>
    obtain ⟨first, others⟩ := List.forall_mem_cons.mp plain
    rw [List.map_cons, Run.run_cons_some, List.forall_mem_cons, List.foldl_cons]
    constructor
    · rintro ⟨next, stepped, ran⟩
      obtain ⟨inRange, rfl⟩ := (step_eq_some_iff first fits).mp stepped
      obtain ⟨rest, same⟩ := (ih others (fits_improve inRange fits)).mp ran
      exact ⟨⟨inRange, rest⟩, same⟩
    · rintro ⟨⟨inRange, rest⟩, same⟩
      exact ⟨_, (step_eq_some_iff first fits).mpr ⟨inRange, rfl⟩,
        (ih others (fits_improve inRange fits)).mpr ⟨rest, same⟩⟩

/-- The peak of the lines so far. Zeros may stand for no line. -/
structure Best (log : List LogLine) (peak : Peak) : Prop where
  virt_le : ∀ line ∈ log, line.virt.truncated ≤ peak.virt
  virt_from : peak.virt = 0 ∨ ∃ line ∈ log, line.virt.truncated = peak.virt
  total_le : ∀ line ∈ log, line.total ≤ peak.res + peak.swap
  total_from : (peak.res = 0 ∧ peak.swap = 0) ∨
    ∃ line ∈ log, line.res.truncated = peak.res ∧ line.swap.truncated = peak.swap

theorem best_improve {log : List LogLine} {peak : Peak} (best : Best log peak) (line : LogLine) :
    Best (log ++ [line]) (peak.improve line) := by
  have old {P : LogLine → Prop} : (∃ other ∈ log, P other) → ∃ other ∈ log ++ [line], P other :=
    fun ⟨other, member, holds⟩ => ⟨other, List.mem_append_left _ member, holds⟩
  have new : line ∈ log ++ [line] := List.mem_append_right _ (List.mem_singleton_self line)
  refine ⟨?_, ?_, ?_, ?_⟩
  · rw [improve_virt, List.forall_mem_append, List.forall_mem_singleton]
    exact ⟨fun other member => (best.virt_le other member).trans (le_max_right _ _), le_max_left _ _⟩
  · rw [improve_virt]
    rcases max_choice line.virt.truncated peak.virt with largest | largest
    · exact Or.inr ⟨line, new, largest.symm⟩
    · rw [largest]
      exact best.virt_from.imp id old
  · rw [List.forall_mem_append, List.forall_mem_singleton]
    obtain ⟨larger, res, swap⟩ | ⟨smaller, res, swap⟩ := improve_cases peak line
    · rw [res, swap]
      exact ⟨fun other member => (best.total_le other member).trans larger.le, le_refl _⟩
    · rw [res, swap]
      exact ⟨best.total_le, smaller⟩
  · obtain ⟨-, res, swap⟩ | ⟨-, res, swap⟩ := improve_cases peak line
    · exact Or.inr ⟨line, new, res.symm, swap.symm⟩
    · rw [res, swap]
      exact best.total_from.imp id old

theorem best_foldl {before log : List LogLine} {peak : Peak} (best : Best before peak) :
    Best (before ++ log) (log.foldl Peak.improve peak) := by
  induction log generalizing before peak with
  | nil =>
    rw [List.append_nil]
    exact best
  | cons line log ih =>
    rw [List.append_cons, List.foldl_cons]
    exact ih (best_improve best line)

/-- The largest VIRT, and RES and SWAP of a line where they are largest together. -/
structure Reports (log : List LogLine) (peak : Peak) : Prop where
  virt : ∃ line ∈ log, line.virt.truncated = peak.virt ∧
    ∀ other ∈ log, other.virt.truncated ≤ peak.virt
  total : ∃ line ∈ log, line.res.truncated = peak.res ∧ line.swap.truncated = peak.swap ∧
    ∀ other ∈ log, other.total ≤ line.total

theorem Best.reports {log : List LogLine} {peak : Peak} (best : Best log peak) (some_line : log ≠ []) :
    Reports log peak := by
  obtain ⟨line, member⟩ := List.exists_mem_of_ne_nil log some_line
  constructor
  · rcases best.virt_from with zero | ⟨peakLine, found, same⟩
    · have low := best.virt_le line member
      have nonneg := line.virt.truncated_nonneg
      exact ⟨line, member, by omega, best.virt_le⟩
    · exact ⟨peakLine, found, same, best.virt_le⟩
  · rcases best.total_from with ⟨res, swap⟩ | ⟨peakLine, found, res, swap⟩
    · have low := best.total_le line member
      have nonnegRes := line.res.truncated_nonneg
      have nonnegSwap := line.swap.truncated_nonneg
      have total : line.total = line.res.truncated + line.swap.truncated := rfl
      refine ⟨line, member, by omega, by omega, fun other found => ?_⟩
      have otherLow := best.total_le other found
      omega
    · have total : peakLine.total = peak.res + peak.swap := by rw [LogLine.total, res, swap]
      refine ⟨peakLine, found, res, swap, fun other member => ?_⟩
      rw [total]
      exact best.total_le other member

/-- Every field is extracted with its unit, and the peak is reported. -/
structure Correct (log : List LogLine) : Prop where
  extracts : ∀ line ∈ log, extract line.text = some line.memory
  reports : log ≠ [] → ∃ peak : Peak, main (log.map LogLine.text) = some peak.print ∧ Reports log peak

/-- The suffix `m` adds its unit instead of multiplying by it. -/
theorem correct_iff (log : List LogLine) :
    Correct log ↔ ∀ line ∈ log, line.Plain ∧ line.InRange := by
  have start : Word.FitsSigned 64 (({} : Peak).res + ({} : Peak).swap) := by decide
  constructor
  · intro correct
    have plain : ∀ line ∈ log, line.Plain := fun line member =>
      (extract_eq_memory_iff line).mp (correct.extracts line member)
    intro line member
    obtain ⟨peak, printed, -⟩ := correct.reports (List.ne_nil_of_mem member)
    obtain ⟨last, ran, -⟩ := Option.map_eq_some_iff.mp printed
    exact ⟨plain line member, ((run_eq_some_iff plain start).mp ran).1 line member⟩
  · intro all
    have plain : ∀ line ∈ log, line.Plain := fun line member => (all line member).1
    have extracts : ∀ line ∈ log, extract line.text = some line.memory := fun line member =>
      (extract_eq_memory_iff line).mpr (plain line member)
    refine ⟨extracts, ?_⟩
    intro some_line
    have ran := (run_eq_some_iff plain start).mpr ⟨fun line member => (all line member).2, rfl⟩
    have best : Best ([] ++ log) (log.foldl Peak.improve {}) :=
      best_foldl ⟨List.forall_mem_nil _, Or.inl rfl, List.forall_mem_nil _, Or.inl ⟨rfl, rfl⟩⟩
    exact ⟨_, by rw [main, ran, Option.map_some], best.reports some_line⟩

/-- The field `0`. -/
def zeroField : Field :=
  ⟨[48], none, .none, 0, by decide, nofun, by decide⟩

/-- The line `1 2m 0 0 `. -/
def megabyteLine : LogLine :=
  ⟨0, [49], 0, ⟨[50], none, .m, 0, by decide, nofun, by decide⟩, zeroField, zeroField, [], by decide,
    List.forall_mem_singleton.mpr (by decide)⟩

/-- Two megabytes are reported as two bytes more than one megabyte. -/
theorem megabytes_added :
    megabyteLine.text = [49, 32, 50, 109, 32, 48, 32, 48, 32] ∧
      main [megabyteLine.text] = some ["VIRT 1048578", "RES  0", "SWAP 0"] ∧
      megabyteLine.virt.truncated = 2097152 ∧ ¬Correct [megabyteLine] := by
  refine ⟨rfl, by decide +kernel, by decide +kernel, fun correct => ?_⟩
  have plain := (extract_eq_memory_iff megabyteLine).mp
    (correct.extracts megabyteLine (List.mem_singleton_self _))
  exact plain.1 rfl

end Peaks

end MaxFinder

end Zeppelin.Experiment
