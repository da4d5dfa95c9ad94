import Mathlib.Algebra.Order.Ring.Int
import Mathlib.Data.Int.ModEq
import Mathlib.Data.Nat.Prime.Basic
import Mathlib.RingTheory.Coprime.Lemmas
import Mathlib.Tactic.Linarith
import Mathlib.Tactic.Ring

/-! Fixed-width integers as reductions of exact integers. A machine operation is
the exact operation followed by the reduction of its result type, so an
operation whose exact result fits is the exact operation. Nothing here mentions
a particular program or width. -/
namespace Zeppelin.Word

/-- Reduction to an unsigned `w`-bit word. -/
def unsigned (w : Nat) (x : Int) : Nat := (x % 2 ^ w).toNat

/-- Two's-complement reduction to a signed `w`-bit word. -/
def signed (w : Nat) (x : Int) : Int := x.bmod (2 ^ w)

/-- Sign-and-magnitude reduction with a `w`-bit magnitude. -/
def signMagnitude (w : Nat) (x : Int) : Int := x.sign * ((x.natAbs % 2 ^ w : Nat) : Int)

def FitsSigned (w : Nat) (x : Int) : Prop := -2 ^ (w - 1) ≤ x ∧ x < 2 ^ (w - 1)

instance (w : Nat) (x : Int) : Decidable (FitsSigned w x) := inferInstanceAs (Decidable (_ ∧ _))

theorem unsigned_lt (w : Nat) (x : Int) : unsigned w x < 2 ^ w := by
  have positive : (0 : Int) < 2 ^ w := by positivity
  have nonneg := Int.emod_nonneg x positive.ne'
  have below := Int.emod_lt_of_pos x positive
  have same : ((x % 2 ^ w).toNat : Int) = x % 2 ^ w := Int.toNat_of_nonneg nonneg
  rw [← same] at below
  exact_mod_cast below

theorem unsigned_natCast {w x : Nat} (h : x < 2 ^ w) : unsigned w x = x := by
  have : ((x : Int) % 2 ^ w) = x := Int.emod_eq_of_lt (Int.natCast_nonneg x) (by exact_mod_cast h)
  rw [unsigned, this, Int.toNat_natCast]

theorem unsigned_eq_mod (w x : Nat) : unsigned w x = x % 2 ^ w := by
  have : ((x : Int) % 2 ^ w) = ((x % 2 ^ w : Nat) : Int) := by push_cast; rfl
  rw [unsigned, this, Int.toNat_natCast]

theorem unsigned_cast (w : Nat) (x : Int) : (unsigned w x : Int) = x % 2 ^ w :=
  Int.toNat_of_nonneg (Int.emod_nonneg _ (by positivity))

theorem signed_eq_self {w : Nat} {x : Int} (positive : 0 < w) (h : FitsSigned w x) :
    signed w x = x := by
  obtain ⟨v, rfl⟩ : ∃ v, w = v + 1 := ⟨w - 1, by omega⟩
  obtain ⟨low, high⟩ := h
  rw [Nat.add_sub_cancel] at low high
  have double : ((2 ^ (v + 1) : Nat) : Int) = 2 * 2 ^ v := by push_cast; ring
  apply Int.bmod_eq_of_le
  · rw [double]; omega
  · rw [double]; omega

/-- Only the least signed word has no negation. -/
theorem signed_neg {w : Nat} {x : Int} (positive : 0 < w) (h : FitsSigned w x)
    (least : x ≠ -2 ^ (w - 1)) : signed w (-x) = -x := by
  obtain ⟨low, high⟩ := h
  exact signed_eq_self positive ⟨by omega, by omega⟩

theorem signed_add_signed (w : Nat) (x y : Int) : signed w (signed w x + y) = signed w (x + y) :=
  Int.bmod_add_bmod

theorem signed_add_signed_right (w : Nat) (x y : Int) :
    signed w (x + signed w y) = signed w (x + y) :=
  Int.add_bmod_bmod

theorem signed_mul_signed (w : Nat) (x y : Int) : signed w (signed w x * y) = signed w (x * y) :=
  Int.bmod_mul_bmod

theorem abs_ediv_lt {v p : Nat} {x : Int} (large : 2 ≤ p) (bound : |x| < p * 2 ^ v) :
    |x / 2 ^ (v + 1)| < p := by
  obtain ⟨low, high⟩ := abs_lt.mp bound
  have half : (0 : Int) < 2 ^ v := by positivity
  have whole : (0 : Int) < 2 * 2 ^ v := by positivity
  have above := Int.lt_ediv_add_one_mul_self x whole
  have below := Int.ediv_mul_le x whole.ne'
  have lower : -(p : Int) < 2 * (x / (2 * 2 ^ v) + 1) := by
    apply lt_of_mul_lt_mul_right (a := 2 ^ v) _ half.le
    linarith
  have upper : 2 * (x / (2 * 2 ^ v)) < p := by
    apply lt_of_mul_lt_mul_right (a := 2 ^ v) _ half.le
    linarith
  rw [pow_succ', abs_lt]
  constructor <;> omega

/-- Wrapping before a reduction modulo an odd number changes the residue of
every small enough integer that does wrap. -/
theorem unsigned_mod_eq_iff {w p : Nat} {x : Int} (positive : 0 < w) (odd : p % 2 = 1)
    (large : 2 ≤ p) (bound : |x| < p * 2 ^ (w - 1)) :
    ((unsigned w x % p : Nat) : Int) = x % p ↔ 0 ≤ x ∧ x < 2 ^ w := by
  obtain ⟨v, rfl⟩ : ∃ v, w = v + 1 := ⟨w - 1, by omega⟩
  have whole : (0 : Int) < 2 ^ (v + 1) := by positivity
  rw [Int.natCast_mod, unsigned_cast]
  constructor
  · intro same
    have divides : (p : Int) ∣ 2 ^ (v + 1) * (x / 2 ^ (v + 1)) := by
      have difference := Int.ModEq.dvd (a := x % 2 ^ (v + 1)) (b := x) same
      rwa [Int.emod_def, sub_sub_cancel] at difference
    have coprime : IsCoprime (p : Int) (2 ^ (v + 1)) := by
      apply IsCoprime.pow_right
      exact Nat.isCoprime_iff_coprime.mpr (Nat.coprime_two_right.mpr (Nat.odd_iff.mpr odd))
    have zero := Int.eq_zero_of_abs_lt_dvd (coprime.dvd_of_dvd_mul_left divides)
      (abs_ediv_lt large bound)
    have exact := Int.emod_add_mul_ediv x (2 ^ (v + 1))
    rw [zero, mul_zero, add_zero] at exact
    exact ⟨exact ▸ Int.emod_nonneg x whole.ne', exact ▸ Int.emod_lt_of_pos x whole⟩
  · rintro ⟨nonneg, below⟩
    rw [Int.emod_eq_of_lt nonneg below]

theorem signMagnitude_eq_self {w : Nat} {x : Int} (h : x.natAbs < 2 ^ w) :
    signMagnitude w x = x := by
  rw [signMagnitude, Nat.mod_eq_of_lt h, Int.sign_mul_natAbs]

theorem natAbs_signMagnitude (w : Nat) (x : Int) :
    (signMagnitude w x).natAbs = x.natAbs % 2 ^ w := by
  rw [signMagnitude, Int.natAbs_mul, Int.natAbs_natCast]
  by_cases zero : x = 0
  · rw [zero]
    simp
  · rw [Int.natAbs_sign_of_ne_zero zero, Nat.one_mul]

theorem natAbs_signMagnitude_lt (w : Nat) (x : Int) : (signMagnitude w x).natAbs < 2 ^ w := by
  rw [natAbs_signMagnitude]
  exact Nat.mod_lt _ (Nat.two_pow_pos w)

/-- Truncated remainder is congruent to its dividend. -/
theorem tmod_emod (x p : Int) : x.tmod p % p = x % p := by
  rw [Int.tmod_def, Int.sub_mul_emod_self_left]

theorem neg_lt_tmod (x : Int) {p : Int} (positive : 0 < p) : -p < x.tmod p := by
  have h := Int.tmod_lt_of_pos (-x) positive
  rw [Int.neg_tmod] at h
  omega

/-- Adding one modulus before the second truncated remainder makes it a
residue, whatever the sign of the term. -/
theorem tmod_shift {c p : Int} (x : Int) (nonneg : 0 ≤ c) (positive : 0 < p) :
    (c + p + x.tmod p).tmod p = (c + x) % p := by
  have low := neg_lt_tmod x positive
  rw [Int.tmod_eq_emod_of_nonneg (by omega)]
  calc (c + p + x.tmod p) % p = (c + x.tmod p + p) % p := by rw [add_right_comm]
    _ = (c + x.tmod p) % p := Int.add_emod_right _ _
    _ = (c + x.tmod p % p) % p := (Int.add_emod_emod _ _ _).symm
    _ = (c + x) % p := by rw [tmod_emod, Int.add_emod_emod]

/-- The double nearest to a whole number: 53 significant bits, ties to even. -/
def toDouble (n : Nat) : Nat :=
  let unit := 2 ^ (n.log2 - 52)
  let below := n / unit
  if unit < 2 * (n % unit) ∨ 2 * (n % unit) = unit ∧ below % 2 = 1 then (below + 1) * unit
  else below * unit

theorem tmod_eq_zero_iff (x p : Int) : x.tmod p = 0 ↔ x % p = 0 := by
  rw [← Int.dvd_iff_tmod_eq_zero, ← Int.dvd_iff_emod_eq_zero]

end Zeppelin.Word
