import Zeppelin.Machine.Varint

/-! The byte code of neighbour identifiers, from `common/compression.h`. The
first neighbour of a list is stored as a distance and a sign from the vertex the
list belongs to, every other one as its distance from the one before. -/
namespace Zeppelin.Aspen

/-- `LAST_BIT_SET`. -/
def lastBitSet (b : UInt8) : Bool := b &&& 0x80 != 0

/-- `compress_neighbor`: the bytes that it stores. -/
def compressNeighbor (value : Nat) : List UInt8 :=
  let curByte := value &&& 0x7f
  if 0 < curByte ∨ 0 < value then
    let left := value >>> 7
    let toWrite := if 0 < left then curByte ||| 0x80 else curByte
    UInt8.ofNat toWrite :: compressNeighbor left
  else []
termination_by value
decreasing_by
  rename_i more
  have zero : value = 0 → value &&& 0x7f = 0 := fun h => by rw [h]; rfl
  have : value >>> 7 = value / 128 := Nat.shiftRight_eq_div_pow value 7
  omega

/-- `compress_first_neighbor`, on vertices that are widened to a `long`. -/
def compressFirstNeighbor (source target : Int) : List UInt8 :=
  let diff := target - source
  let toCompress := diff.natAbs % 2 ^ 32
  let firstByte := toCompress &&& 0x3f
  let firstByte := if diff < 0 then firstByte ||| 0x40 else firstByte
  let toCompress := toCompress >>> 6
  let firstByte := if 0 < toCompress then firstByte ||| 0x80 else firstByte
  UInt8.ofNat firstByte :: compressNeighbor toCompress

/-- `read_neighbor` in 32-bit words, and the bytes after it. -/
def readNeighbor (shiftAmount edgeRead : Nat) : List UInt8 → Option (Nat × List UInt8)
  | [] => none
  | b :: start =>
    let edgeRead := (edgeRead + ((b &&& 0x7f).toNat <<< shiftAmount) % 2 ^ 32) % 2 ^ 32
    if lastBitSet b then readNeighbor (shiftAmount + 7) edgeRead start else some (edgeRead, start)

/-- The loop of `read_first_neighbor` over the bytes after the first. -/
def readFirstNeighborRest (shiftAmount edgeRead : Nat) : List UInt8 → Option (Nat × List UInt8)
  | [] => none
  | b :: start =>
    let edgeRead := edgeRead ||| ((b &&& 0x7f).toNat <<< shiftAmount) % 2 ^ 32
    if lastBitSet b then readFirstNeighborRest (shiftAmount + 7) edgeRead start
    else some (edgeRead, start)

/-- `read_first_neighbor`. -/
def readFirstNeighbor (src : Nat) : List UInt8 → Option (Nat × List UInt8)
  | [] => none
  | fb :: start =>
    let edgeRead := (fb &&& 0x3f).toNat
    let read :=
      if lastBitSet fb then readFirstNeighborRest 6 edgeRead start else some (edgeRead, start)
    read.map fun (edgeRead, start) =>
      (if fb &&& 0x40 != 0 then (src + 2 ^ 32 - edgeRead) % 2 ^ 32 else (src + edgeRead) % 2 ^ 32,
        start)

theorem lastBitSet_eq (b : UInt8) : lastBitSet b = Varint.continues b := by
  have table : ∀ n : Fin 256, lastBitSet (UInt8.ofNat n) = Varint.continues (UInt8.ofNat n) := by
    decide +kernel
  have this := table ⟨b.toNat, b.toNat_lt⟩
  rwa [UInt8.ofNat_toNat] at this

theorem toNat_and_group (b : UInt8) : (b &&& 0x7f).toNat = b.toNat % 128 := by
  rw [UInt8.toNat_and]
  exact Nat.and_two_pow_sub_one_eq_mod b.toNat 7

theorem or_continuation {n : Nat} (small : n < 128) : n ||| 0x80 = n + 128 := by
  rw [Nat.or_comm, Nat.add_comm]
  exact (Nat.two_pow_add_eq_or_of_lt (i := 7) small 1).symm

theorem compressNeighbor_eq (value : Nat) : compressNeighbor value = Varint.write value := by
  induction value using Nat.strong_induction_on with
  | _ value ih =>
    have group : value &&& 0x7f = value % 128 := Nat.and_two_pow_sub_one_eq_mod value 7
    have left : value >>> 7 = value / 128 := Nat.shiftRight_eq_div_pow value 7
    rw [compressNeighbor, Varint.write]
    simp only [group, left]
    by_cases zero : value = 0
    · rw [if_neg (by omega), if_pos zero]
    · rw [if_pos (by omega), if_neg zero, ih (value / 128) (by omega)]
      by_cases last : value / 128 = 0
      · rw [if_neg (by omega), if_pos last, Nat.add_zero]
      · rw [if_pos (by omega), if_neg last, or_continuation (Nat.mod_lt _ (by decide))]

/-- The words wrap, so the reader has the groups' number modulo `2 ^ 32`. -/
theorem readNeighbor_eq (shift sum : Nat) (bytes : List UInt8) :
    readNeighbor shift (sum % 2 ^ 32) bytes =
      (Varint.read shift sum bytes).map (Prod.map (· % 2 ^ 32) id) := by
  induction bytes generalizing shift sum with
  | nil => rfl
  | cons b rest ih =>
    have group : (sum % 2 ^ 32 + ((b &&& 0x7f).toNat <<< shift) % 2 ^ 32) % 2 ^ 32 =
        (sum + b.toNat % 128 * 2 ^ shift) % 2 ^ 32 := by
      rw [toNat_and_group, Nat.shiftLeft_eq, ← Nat.add_mod]
    rw [readNeighbor, Varint.read]
    simp only [group, lastBitSet_eq]
    split
    · exact ih (shift + 7) _
    · rfl

theorem le_of_read {shift sum value : Nat} {bytes rest : List UInt8}
    (done : Varint.read shift sum bytes = some (value, rest)) : sum ≤ value := by
  induction bytes generalizing shift sum with
  | nil => cases done
  | cons b more ih =>
    rw [Varint.read] at done
    split at done
    · exact Nat.le_trans (Nat.le_add_right _ _) (ih done)
    · cases done
      exact Nat.le_add_right _ _

/-- The groups do not overlap, so a disjunction of them is their sum. -/
theorem readFirstNeighborRest_eq {shift sum value : Nat} {bytes rest : List UInt8}
    (low : sum < 2 ^ shift) (small : value < 2 ^ 32)
    (done : Varint.read shift sum bytes = some (value, rest)) :
    readFirstNeighborRest shift sum bytes = some (value, rest) := by
  induction bytes generalizing shift sum with
  | nil => cases done
  | cons b more ih =>
    have bound : sum + b.toNat % 128 * 2 ^ shift ≤ value := by
      rw [Varint.read] at done
      split at done
      · exact le_of_read done
      · cases done
        exact Nat.le_refl _
    have group : sum ||| ((b &&& 0x7f).toNat <<< shift) % 2 ^ 32 =
        sum + b.toNat % 128 * 2 ^ shift := by
      rw [toNat_and_group, Nat.shiftLeft_eq, Nat.mod_eq_of_lt (by omega), Nat.or_comm, Nat.add_comm,
        Nat.mul_comm]
      exact (Nat.two_pow_add_eq_or_of_lt low _).symm
    have high : sum + b.toNat % 128 * 2 ^ shift < 2 ^ (shift + 7) := by
      have less : b.toNat % 128 ≤ 127 := by omega
      have scaled := Nat.mul_le_mul_right (2 ^ shift) less
      rw [Nat.pow_add]
      omega
    rw [readFirstNeighborRest]
    rw [Varint.read] at done
    simp only [group, lastBitSet_eq] at done ⊢
    split at done
    next more =>
      rw [if_pos more]
      exact ih high done
    next last =>
      rw [if_neg last]
      exact done

theorem readNeighbor_compressNeighbor {value : Nat} (positive : 0 < value) (small : value < 2 ^ 32)
    (rest : List UInt8) : readNeighbor 0 0 (compressNeighbor value ++ rest) = some (value, rest) := by
  have exact := readNeighbor_eq 0 0 (compressNeighbor value ++ rest)
  rw [compressNeighbor_eq, Varint.read_write positive, Nat.zero_add, pow_zero, Nat.mul_one,
    Option.map_some, Prod.map_apply, Nat.mod_eq_of_lt small] at exact
  rwa [compressNeighbor_eq]

/-- The three parts of the first byte do not disturb each other. -/
theorem firstByte_parts (low : Fin 64) (negative more : Bool) (b : UInt8)
    (byte : b = UInt8.ofNat
      (if more then (if negative then low.val ||| 0x40 else low.val) ||| 0x80
        else if negative then low.val ||| 0x40 else low.val)) :
    (b &&& 0x3f).toNat = low ∧ (b &&& 0x40 != 0) = negative ∧ lastBitSet b = more := by
  subst byte
  revert low negative more
  decide +kernel

/-- A first neighbour reads back, on either side of its source. -/
theorem readFirstNeighbor_compress {source target : Nat} (valid : source < 2 ^ 32)
    (fits : target < 2 ^ 32) (rest : List UInt8) :
    readFirstNeighbor source (compressFirstNeighbor source target ++ rest) = some (target, rest) := by
  obtain ⟨gap, gapEq⟩ : ∃ gap, gap = ((target : Int) - source).natAbs := ⟨_, rfl⟩
  have distance : ((target : Int) - source).natAbs % 2 ^ 32 = gap := by
    rw [← gapEq, Nat.mod_eq_of_lt (by omega)]
  have low : gap &&& 0x3f = gap % 64 := Nat.and_two_pow_sub_one_eq_mod gap 6
  have left : gap >>> 6 = gap / 64 := Nat.shiftRight_eq_div_pow gap 6
  rw [compressFirstNeighbor]
  simp only [distance, low, left, List.cons_append]
  obtain ⟨b, byte⟩ : ∃ b : UInt8, b = UInt8.ofNat
      (if 0 < gap / 64 then (if (target : Int) - source < 0 then gap % 64 ||| 0x40 else gap % 64) ||| 0x80
        else if (target : Int) - source < 0 then gap % 64 ||| 0x40 else gap % 64) := ⟨_, rfl⟩
  obtain ⟨group, sign, more⟩ := firstByte_parts ⟨gap % 64, Nat.mod_lt _ (by decide)⟩
    ((target : Int) - source < 0) (0 < gap / 64) b (by simpa only [decide_eq_true_eq] using byte)
  rw [← byte, readFirstNeighbor, group, sign, more]
  have whole : (if decide (0 < gap / 64) = true then
      readFirstNeighborRest 6 (gap % 64) (compressNeighbor (gap / 64) ++ rest)
      else some (gap % 64, compressNeighbor (gap / 64) ++ rest)) = some (gap, rest) := by
    rw [compressNeighbor_eq]
    split
    next large =>
      have done := Varint.read_write (of_decide_eq_true large) 6 (gap % 64) rest
      rw [show gap % 64 + gap / 64 * 2 ^ 6 = gap by omega] at done
      exact readFirstNeighborRest_eq (Nat.mod_lt _ (by decide)) (by omega) done
    next short =>
      have none : gap / 64 = 0 := by simpa using short
      rw [none, Varint.write_zero, show gap % 64 = gap by omega]
      rfl
  simp only [whole, Option.map_some]
  by_cases negative : (target : Int) - source < 0
  · rw [if_pos (decide_eq_true negative), show source + 2 ^ 32 - gap = target + 2 ^ 32 by omega,
      Nat.add_mod_right, Nat.mod_eq_of_lt fits]
  · rw [if_neg (by simpa using negative), show source + gap = target by omega, Nat.mod_eq_of_lt fits]

theorem length_compressNeighbor_le {value : Nat} (small : value < 2 ^ 32) :
    (compressNeighbor value).length ≤ 5 := by
  rw [compressNeighbor_eq]
  exact Varint.length_write_le (by omega)

/-- A sign bit costs no byte: six and four groups of seven hold 32 bits. -/
theorem length_compressFirstNeighbor_le (source target : Int) :
    (compressFirstNeighbor source target).length ≤ 5 := by
  have small := Nat.mod_lt (target - source).natAbs (show 0 < 2 ^ 32 by decide)
  rw [compressFirstNeighbor, List.length_cons, compressNeighbor_eq, Nat.shiftRight_eq_div_pow]
  have groups : (target - source).natAbs % 2 ^ 32 / 2 ^ 6 < 128 ^ 4 := by omega
  exact Nat.succ_le_succ (Varint.length_write_le groups)

end Zeppelin.Aspen
