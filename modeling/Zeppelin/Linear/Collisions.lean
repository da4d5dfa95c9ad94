import Mathlib.Algebra.Polynomial.Roots
import Mathlib.Algebra.Field.ZMod

/-! Collisions of the polynomial fingerprint `∑ x k * r ^ (k + 1)`. A vector that
is not concentrated on one index agrees with a one-entry vector of the same total
at few bases `r`: the difference is a nonzero polynomial over the prime field. -/
namespace Zeppelin.Linear

open Polynomial

variable {p : ℕ} [Fact p.Prime]

/-- The fingerprint of `x` minus that of the one-entry vector `total` at
exponent `t`, as a polynomial in the base. -/
noncomputable def difference (p n : ℕ) (x : ℕ → ℤ) (total : ℤ) (t : ℕ) : (ZMod p)[X] :=
  ∑ k ∈ Finset.range n, C ((x k : ℤ) : ZMod p) * X ^ (k + 1) - C (total : ZMod p) * X ^ t

theorem difference_eval (n : ℕ) (x : ℕ → ℤ) (total : ℤ) (t : ℕ) (r : ZMod p) :
    (difference p n x total t).eval r =
      ((∑ k ∈ Finset.range n, (x k : ZMod p) * r ^ (k + 1)) - (total : ZMod p) * r ^ t) := by
  simp only [difference, eval_sub, eval_finsetSum, eval_mul, eval_C, eval_pow, eval_X]

theorem difference_natDegree (n : ℕ) (x : ℕ → ℤ) (total : ℤ) {t : ℕ} (bound : t ≤ n) :
    (difference p n x total t).natDegree ≤ n := by
  apply (natDegree_sub_le _ _).trans
  apply max_le
  · apply natDegree_sum_le_of_forall_le
    intro k member
    have := Finset.mem_range.mp member
    exact (natDegree_C_mul_X_pow_le _ _).trans (by omega)
  · exact (natDegree_C_mul_X_pow_le _ _).trans bound

theorem difference_coeff (n : ℕ) (x : ℕ → ℤ) (total : ℤ) {t k : ℕ} (within : k < n)
    (other : k + 1 ≠ t) : (difference p n x total t).coeff (k + 1) = (x k : ZMod p) := by
  simp only [difference, coeff_sub, finsetSum_coeff, coeff_C_mul, coeff_X_pow, if_neg other,
    mul_zero, sub_zero]
  rw [Finset.sum_eq_single_of_mem k (Finset.mem_range.mpr within)]
  · simp only [if_true, mul_one]
  · intro other _ different
    rw [if_neg (by omega), mul_zero]

/-- If the difference vanishes identically, every entry away from `t` does. -/
theorem concentrated_of_difference_eq_zero {n : ℕ} {x : ℕ → ℤ} {total : ℤ} {t : ℕ}
    (small : ∀ k, |x k| < p) (zero : difference p n x total t = 0) {k : ℕ} (within : k < n)
    (other : k + 1 ≠ t) : x k = 0 := by
  have coefficient := difference_coeff (p := p) n x total within other
  rw [zero, coeff_zero] at coefficient
  have divides := (ZMod.intCast_zmod_eq_zero_iff_dvd (x k) p).mp coefficient.symm
  exact Int.eq_zero_of_abs_lt_dvd divides (small k)

/-- At most `n` bases make a vector of length `n` look like a one-entry vector at
exponent `t`, unless all its entries away from `t` vanish. -/
theorem card_collisions_le {n : ℕ} {x : ℕ → ℤ} (total : ℤ) {t : ℕ} (bound : t ≤ n)
    (small : ∀ k, |x k| < p) (spread : ∃ k < n, k + 1 ≠ t ∧ x k ≠ 0) :
    (Finset.univ.filter fun r : ZMod p =>
      (∑ k ∈ Finset.range n, (x k : ZMod p) * r ^ (k + 1)) = (total : ZMod p) * r ^ t).card ≤ n := by
  obtain ⟨k, within, other, nonzero⟩ := spread
  have proper : difference p n x total t ≠ 0 :=
    fun zero => nonzero (concentrated_of_difference_eq_zero small zero within other)
  have roots : (Finset.univ.filter fun r : ZMod p =>
      (∑ k ∈ Finset.range n, (x k : ZMod p) * r ^ (k + 1)) = (total : ZMod p) * r ^ t) ⊆
        (difference p n x total t).roots.toFinset := by
    intro r member
    rw [Multiset.mem_toFinset, mem_roots proper, IsRoot.def, difference_eval,
      (Finset.mem_filter.mp member).2, sub_self]
  exact (Finset.card_le_card roots).trans <| (Multiset.toFinset_card_le _).trans <|
    (card_roots' _).trans (difference_natDegree n x total bound)

/-- The same bound for natural bases below `p` that pass any test which implies
the collision. -/
theorem card_bases_le {n : ℕ} {x : ℕ → ℤ} (total : ℤ) {t : ℕ} (bound : t ≤ n)
    (small : ∀ k, |x k| < p) (spread : ∃ k < n, k + 1 ≠ t ∧ x k ≠ 0) {passes : ℕ → Prop}
    [DecidablePred passes]
    (collides : ∀ r < p, passes r →
      ∑ k ∈ Finset.range n, x k * (r : ℤ) ^ (k + 1) ≡ total * (r : ℤ) ^ t [ZMOD p]) :
    ((Finset.range p).filter passes).card ≤ n := by
  refine le_trans ?_ (card_collisions_le total bound small spread)
  apply Finset.card_le_card_of_injOn (fun r : ℕ => (r : ZMod p))
  · intro r member
    obtain ⟨inside, passed⟩ := Finset.mem_filter.mp (Finset.mem_coe.mp member)
    have residues := (ZMod.intCast_eq_intCast_iff _ _ p).mpr
      (collides r (Finset.mem_range.mp inside) passed)
    push_cast at residues
    simpa using residues
  · intro r hr r' hr' same
    have left := Finset.mem_range.mp (Finset.mem_filter.mp (Finset.mem_coe.mp hr)).1
    have right := Finset.mem_range.mp (Finset.mem_filter.mp (Finset.mem_coe.mp hr')).1
    have congruent := (ZMod.natCast_eq_natCast_iff' r r' p).mp same
    rwa [Nat.mod_eq_of_lt left, Nat.mod_eq_of_lt right] at congruent

end Zeppelin.Linear
