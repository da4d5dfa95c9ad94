import Mathlib.Algebra.Order.Ring.Nat
import Mathlib.Tactic.Ring

/-! Numbers in little-endian groups of seven bits. Every byte but the last of a
number carries a continuation bit, and zero has no byte at all. -/
namespace Zeppelin.Varint

def continues (byte : UInt8) : Bool := 128 ≤ byte.toNat

def write (value : Nat) : List UInt8 :=
  if value = 0 then []
  else UInt8.ofNat (value % 128 + if value / 128 = 0 then 0 else 128) :: write (value / 128)

/-- Adds the groups at increasing shifts up to the first byte that does not
continue. There is no result when the bytes end before it. -/
def read (shift sum : Nat) : List UInt8 → Option (Nat × List UInt8)
  | [] => none
  | byte :: rest =>
    let sum := sum + byte.toNat % 128 * 2 ^ shift
    if continues byte then read (shift + 7) sum rest else some (sum, rest)

theorem write_zero : write 0 = [] := by
  rw [write]
  rfl

theorem write_small {value : Nat} (positive : 0 < value) (small : value < 128) :
    write value = [UInt8.ofNat value] := by
  have none : value / 128 = 0 := Nat.div_eq_of_lt small
  rw [write, if_neg (by omega), if_pos none, none, write_zero, Nat.mod_eq_of_lt small]
  rfl

theorem write_large {value : Nat} (large : 128 ≤ value) :
    write value = UInt8.ofNat (value % 128 + 128) :: write (value / 128) := by
  have more : value / 128 ≠ 0 := by omega
  rw [write, if_neg (by omega), if_neg more]

/-- The bytes of a number read back to it, whatever follows them. -/
theorem read_write {value : Nat} (positive : 0 < value) (shift sum : Nat) (rest : List UInt8) :
    read shift sum (write value ++ rest) = some (sum + value * 2 ^ shift, rest) := by
  induction value using Nat.strong_induction_on generalizing shift sum with
  | _ value ih =>
    by_cases small : value < 128
    · have byte : (UInt8.ofNat value).toNat = value := UInt8.toNat_ofNat_of_lt' (show value < 2 ^ 8 by omega)
      rw [write_small positive small, List.singleton_append, read]
      simp only [continues, byte, Nat.mod_eq_of_lt small, decide_eq_true_eq]
      rw [if_neg (by omega)]
    · have byte : (UInt8.ofNat (value % 128 + 128)).toNat = value % 128 + 128 :=
        UInt8.toNat_ofNat_of_lt' (show value % 128 + 128 < 2 ^ 8 by omega)
      have group : (value % 128 + 128) % 128 = value % 128 := by omega
      rw [write_large (by omega), List.cons_append, read]
      simp only [continues, byte, group, decide_eq_true_eq]
      rw [if_pos (by omega), ih (value / 128) (by omega) (by omega)]
      congr 2
      have parts := Nat.mod_add_div value 128
      calc sum + value % 128 * 2 ^ shift + value / 128 * 2 ^ (shift + 7)
          = sum + (value % 128 + 128 * (value / 128)) * 2 ^ shift := by ring
        _ = sum + value * 2 ^ shift := by rw [parts]

theorem length_write_le {value groups : Nat} (bound : value < 128 ^ groups) :
    (write value).length ≤ groups := by
  induction groups generalizing value with
  | zero =>
    obtain rfl : value = 0 := by simpa using bound
    rw [write_zero, List.length_nil]
  | succ groups ih =>
    by_cases zero : value = 0
    · rw [zero, write_zero]
      exact Nat.zero_le _
    · have less : value / 128 < 128 ^ groups := by
        rw [Nat.div_lt_iff_lt_mul (by decide), ← pow_succ]
        exact bound
      rw [write, if_neg zero, List.length_cons]
      exact Nat.succ_le_succ (ih less)

end Zeppelin.Varint
