import Mathlib.Data.Nat.Bitwise

/-! Integers packed into one word, a sign bit above a `w`-bit magnitude. Zero has
a second, non-canonical word with the sign bit set. -/
namespace Zeppelin.SignMagnitude

/-- One bit of a number, as a masking operation tests it. -/
theorem and_two_pow_ne_zero (n w : Nat) : n &&& 2 ^ w ≠ 0 ↔ n / 2 ^ w % 2 = 1 := by
  rw [Nat.and_two_pow, Nat.testBit_eq_decide_div_mod_eq]
  by_cases bit : n / 2 ^ w % 2 = 1
  · simp [bit]
  · simp [bit]

theorem sign_bit_iff {n w : Nat} (word : n < 2 ^ (w + 1)) : n &&& 2 ^ w ≠ 0 ↔ 2 ^ w ≤ n := by
  have positive : 0 < 2 ^ w := Nat.two_pow_pos w
  have small : n / 2 ^ w < 2 := Nat.div_lt_of_lt_mul (by rw [pow_succ] at word; omega)
  rw [and_two_pow_ne_zero, Nat.mod_eq_of_lt small]
  constructor
  · intro one
    exact (Nat.one_le_div_iff positive).mp one.ge
  · intro reached
    have := (Nat.one_le_div_iff positive).mpr reached
    omega

def encode (w : Nat) (v : Int) : Nat := if v < 0 then v.natAbs + 2 ^ w else v.natAbs

def decode (w n : Nat) : Int := if 2 ^ w ≤ n then -((n - 2 ^ w : Nat) : Int) else n

/-- A word that is not the second word of zero. -/
def Canonical (w n : Nat) : Prop := n < 2 ^ (w + 1) ∧ (n % 2 ^ w = 0 → n < 2 ^ w)

instance (w n : Nat) : Decidable (Canonical w n) := inferInstanceAs (Decidable (_ ∧ (_ → _)))

theorem natAbs_decode_lt {w n : Nat} (word : n < 2 ^ (w + 1)) : (decode w n).natAbs < 2 ^ w := by
  rw [pow_succ] at word
  rw [decode]
  split <;> omega

theorem encode_lt {w : Nat} {v : Int} (fits : v.natAbs < 2 ^ w) : encode w v < 2 ^ (w + 1) := by
  rw [encode, pow_succ]
  split <;> omega

theorem decode_encode {w : Nat} {v : Int} (fits : v.natAbs < 2 ^ w) : decode w (encode w v) = v := by
  rw [encode]
  split
  next negative =>
    rw [decode, if_pos (Nat.le_add_left _ _), Nat.add_sub_cancel]
    omega
  next nonneg =>
    rw [decode, if_neg (by omega)]
    omega

theorem canonical_encode {w : Nat} {v : Int} (fits : v.natAbs < 2 ^ w) : Canonical w (encode w v) := by
  refine ⟨encode_lt fits, fun zero => ?_⟩
  rw [encode] at zero ⊢
  split at zero
  next negative =>
    rw [Nat.add_mod_right, Nat.mod_eq_of_lt fits] at zero
    omega
  next nonneg =>
    rw [if_neg nonneg]
    exact fits

/-- A canonical word is the word of its integer. -/
theorem encode_decode {w n : Nat} (canonical : Canonical w n) : encode w (decode w n) = n := by
  obtain ⟨word, unique⟩ := canonical
  rw [decode]
  split
  next signed =>
    have positive : n ≠ 2 ^ w := by
      rintro rfl
      exact absurd (unique (Nat.mod_self _)) (Nat.lt_irrefl _)
    rw [encode, if_pos (by omega)]
    omega
  next unsigned =>
    rw [encode, if_neg (by omega), Int.natAbs_natCast]

/-- The sign bit of a canonical word is the sign of its integer. -/
theorem sign_encode {w : Nat} {v : Int} (fits : v.natAbs < 2 ^ w) : 2 ^ w ≤ encode w v ↔ v < 0 := by
  rw [encode]
  split <;> omega

end Zeppelin.SignMagnitude
