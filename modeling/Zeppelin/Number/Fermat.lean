import Mathlib.FieldTheory.Finite.Basic
import Mathlib.NumberTheory.FermatPsp

/-! The residues that a Fermat test can find. For an odd modulus above 1 a power
with exponent `n - 1` is never `-1`, prime modulus or not: every prime factor
would have to be 1 modulo a higher power of two than `n` is. -/
namespace Zeppelin.Number

theorem prod_modEq_one {m : Nat} {factors : List Nat} (each : ∀ q ∈ factors, q ≡ 1 [MOD m]) :
    factors.prod ≡ 1 [MOD m] := by
  induction factors with
  | nil => rfl
  | cons q rest ih =>
    rw [List.prod_cons]
    exact (each q List.mem_cons_self).mul (ih fun p hp => each p (List.mem_cons_of_mem q hp))

/-- A number is 1 modulo `m` when all its prime factors are. -/
theorem modEq_one_of_primes {m n : Nat} (nonzero : n ≠ 0)
    (each : ∀ p, p.Prime → p ∣ n → p ≡ 1 [MOD m]) : n ≡ 1 [MOD m] := by
  have product : n.primeFactorsList.prod ≡ 1 [MOD m] := by
    apply prod_modEq_one
    intro q member
    exact each q (Nat.prime_of_mem_primeFactorsList member) (Nat.dvd_of_mem_primeFactorsList member)
  rwa [Nat.prod_primeFactorsList nonzero] at product

/-- A power that is `-1` modulo an odd prime has a base whose order uses up one
more factor two than the exponent has. -/
theorem two_pow_dvd_of_pow_eq_neg_one {p s t : Nat} (prime : p.Prime) (odd : p ≠ 2) {a : ZMod p}
    (minus : a ^ (2 ^ s * t) = -1) : 2 ^ (s + 1) ∣ p - 1 := by
  have : Fact p.Prime := ⟨prime⟩
  have : Fact (2 < p) := ⟨lt_of_le_of_ne prime.two_le (Ne.symm odd)⟩
  have half : (a ^ t) ^ 2 ^ s = -1 := by rw [← pow_mul, mul_comm t, minus]
  have whole : (a ^ t) ^ 2 ^ (s + 1) = 1 := by rw [pow_succ, pow_mul, half, neg_one_sq]
  have proper : ¬(a ^ t) ^ 2 ^ s = 1 := by
    rw [half]
    exact ZMod.neg_one_ne_one
  have nonzero : a ^ t ≠ 0 := by
    intro zero
    rw [zero, zero_pow (pow_ne_zero _ two_ne_zero)] at whole
    exact zero_ne_one whole
  rw [← orderOf_eq_prime_pow proper whole]
  exact ZMod.orderOf_dvd_card_sub_one nonzero

theorem pow_pred_ne_neg_one {n : Nat} (odd : n % 2 = 1) (large : 1 < n) (a : Nat) :
    (a : ZMod n) ^ (n - 1) ≠ -1 := by
  intro minus
  obtain ⟨s, t, oddT, split⟩ := Nat.exists_eq_two_pow_mul_odd (show n - 1 ≠ 0 by omega)
  have each : ∀ p, p.Prime → p ∣ n → p ≡ 1 [MOD 2 ^ (s + 1)] := by
    intro p prime divides
    have oddP : p ≠ 2 := by
      rintro rfl
      omega
    have reduced : ((a : ZMod p)) ^ (2 ^ s * t) = -1 := by
      have image := congrArg (ZMod.castHom divides (ZMod p)) minus
      rwa [map_pow, map_natCast, map_neg, map_one, split] at image
    have order := two_pow_dvd_of_pow_eq_neg_one prime oddP reduced
    exact ((Nat.modEq_iff_dvd' prime.one_le).mpr order).symm
  have all := modEq_one_of_primes (by omega) each
  have divides : 2 ^ (s + 1) ∣ n - 1 := (Nat.modEq_iff_dvd' large.le).mp all.symm
  rw [split, pow_succ] at divides
  have even : 2 ∣ t := Nat.dvd_of_mul_dvd_mul_left (by positivity) divides
  exact (Nat.not_even_iff_odd.mpr oddT) (even_iff_two_dvd.mpr even)

/-- The last residue is never a power with exponent `n - 1`. -/
theorem pow_pred_mod_ne_pred {n : Nat} (odd : n % 2 = 1) (large : 1 < n) (a : Nat) :
    a ^ (n - 1) % n ≠ n - 1 := by
  intro last
  apply pow_pred_ne_neg_one odd large a
  rw [← Nat.cast_pow, ← ZMod.natCast_mod, last, Nat.cast_sub large.le, ZMod.natCast_self,
    zero_sub, Nat.cast_one]

end Zeppelin.Number
