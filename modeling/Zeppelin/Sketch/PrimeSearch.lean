import Zeppelin.Sketch.PrimeGenerator
import Mathlib.FieldTheory.Finite.Basic
import Mathlib.NumberTheory.LucasPrimality
import Mathlib.Tactic.NormNum.Prime

/-! The prime search of the sketch constructor returns. The witness test accepts
every prime (Fermat, through `powermod`), and below the top of each `ubucket_t`
range there is a certified prime above every square of a `vec_t`, so the search
stops before its candidate wraps. The converse, that what the test accepts is
prime, is not claimed and not used. -/
namespace Zeppelin.Sketch.PrimeGenerator

variable {T : Config}

theorem powermod_fermat {n a : Nat} (prime : n.Prime) (hn : n < 2 ^ T.bucketBits)
    (positive : 0 < a) (below : a < n) : powermod T a (n - 1) n = 1 := by
  rw [powermod_eq prime.two_le hn (below.trans hn)]
  have coprime : IsCoprime (a : ℤ) n :=
    Nat.isCoprime_iff_coprime.mpr (Nat.coprime_of_lt_prime positive.ne' below prime).symm
  have fermat : ((a : ℤ)) ^ (n - 1) ≡ 1 [ZMOD n] := Int.ModEq.pow_card_sub_one_eq_one prime coprime
  have natural : a ^ (n - 1) ≡ 1 [MOD n] := (Int.natCast_modEq_iff).mp (by exact_mod_cast fermat)
  calc a ^ (n - 1) % n = 1 % n := natural
    _ = 1 := Nat.mod_eq_of_lt prime.one_lt

theorem witnessLoop_of_prime {n m : Nat} (prime : n.Prime) (hn : n < 2 ^ T.bucketBits)
    {tests : List Nat} (positive : ∀ a ∈ tests, 0 < a) :
    witnessLoop T n (n - 1) m tests = true := by
  induction tests with
  | nil => rfl
  | cons a rest ih =>
    rw [witnessLoop]
    split
    · rfl
    · rename_i below
      have one := powermod_fermat (T := T) prime hn (positive a (by simp)) (by omega)
      rw [one]
      simpa using ih (fun b hb => positive b (by simp [hb]))

/-- The halving loop never runs on an odd candidate, so the exponent of the test
is `n - 1` and no squaring is tried. -/
theorem splitLoop_odd {n : Nat} (odd : n % 2 = 1) : splitLoop (n - 1) (n - 1) 0 = (n - 1, 0) := by
  have even : ¬((n - 1) % 2 ≠ 0) := by omega
  generalize n - 1 = d at even ⊢
  cases d with
  | zero => rfl
  | succ d => rw [splitLoop, if_neg even]

theorem isPrime_of_prime {n : Nat} (prime : n.Prime) (hn : n < 2 ^ T.bucketBits) :
    isPrime T n = true := by
  rw [isPrime]
  by_cases two : n = 2
  · rw [if_pos two]
  · have odd : n % 2 = 1 := prime.eq_two_or_odd.resolve_left two
    have large := prime.two_le
    rw [if_neg two, if_neg (by omega), splitLoop_odd odd]
    exact witnessLoop_of_prime prime hn (by decide)

theorem two_le_of_isPrime {n : Nat} (accepted : isPrime T n = true) : 2 ≤ n := by
  rw [isPrime] at accepted
  split at accepted
  · omega
  · split at accepted
    · contradiction
    · omega

/-- Lucas's criterion, with the powers computed by `powermod` itself. -/
theorem prime_of_certificate {p a : Nat} (factors : List Nat) (hp : p < 2 ^ T.bucketBits)
    (large : 2 ≤ p) (ha : a < 2 ^ T.bucketBits) (product : factors.prod = p - 1)
    (primes : ∀ q ∈ factors, q.Prime) (full : powermod T a (p - 1) p = 1)
    (proper : ∀ q ∈ factors, powermod T a ((p - 1) / q) p ≠ 1) : p.Prime := by
  have power : ∀ e, ((a : ZMod p) ^ e = 1 ↔ powermod T a e p = 1) := by
    intro e
    rw [powermod_eq large hp ha, ← Nat.cast_pow, ← Nat.cast_one,
      ZMod.natCast_eq_natCast_iff, Nat.ModEq, Nat.mod_eq_of_lt (show 1 < p by omega)]
  apply lucas_primality p (a : ZMod p) ((power _).mpr full)
  intro q hq divides
  rw [← product] at divides
  obtain ⟨f, member, hf⟩ := (Prime.dvd_prod_iff hq.prime).mp divides
  obtain rfl := (Nat.prime_dvd_prime_iff_eq hq (primes f member)).mp hf
  exact fun one => proper q member ((power _).mp one)

/-- A prime between the square of every `vec_t` and the top of `ubucket_t`. -/
def topPrime : Config → Nat
  | .native => 18446744073579921409
  | .wide => 340282366920938463462147376533309751297

theorem topPrime_native : (topPrime .native).Prime := by
  apply prime_of_certificate (T := .native) (a := 13)
    (List.replicate 17 2 ++ [3, 41, 47, 163, 331, 653, 691])
  · decide +kernel
  · decide +kernel
  · decide +kernel
  · decide +kernel
  · intro q member
    simp only [List.mem_append, List.mem_replicate, List.mem_cons, List.not_mem_nil,
      or_false] at member
    rcases member with ⟨-, rfl⟩ | rfl | rfl | rfl | rfl | rfl | rfl | rfl <;> norm_num
  · decide +kernel
  · decide +kernel

theorem topPrime_wide : (topPrime .wide).Prime := by
  apply prime_of_certificate (T := .wide) (a := 5)
    (List.replicate 51 2 ++ [3, 3, 3, 19, 59, 337, 577, 877, 1093, 1193, 22453])
  · decide +kernel
  · decide +kernel
  · decide +kernel
  · decide +kernel
  · intro q member
    simp only [List.mem_append, List.mem_replicate, List.mem_cons, List.not_mem_nil,
      or_false] at member
    rcases member with ⟨-, rfl⟩ | rfl | rfl | rfl | rfl | rfl | rfl | rfl | rfl | rfl | rfl |
      rfl <;> norm_num
  · decide +kernel
  · decide +kernel

theorem topPrime_prime (T : Config) : (topPrime T).Prime := by
  cases T
  · exact topPrime_native
  · exact topPrime_wide

theorem topPrime_lt (T : Config) : topPrime T < 2 ^ T.bucketBits := by cases T <;> decide

theorem square_lt_topPrime {n : Nat} (hn : n < 2 ^ T.vecBits) : n * n + 1 < topPrime T := by
  have top : n ≤ 2 ^ T.vecBits - 1 := by omega
  have square := Nat.mul_le_mul top top
  have room : (2 ^ T.vecBits - 1) * (2 ^ T.vecBits - 1) + 1 < topPrime T := by
    cases T <;> decide
  omega

/-- The search from an odd candidate at or below an accepted odd number reaches
the least accepted odd number without wrapping. -/
theorem generatePrimeLoop_spec (fuel : Nat) {n Q : Nat} (odd : n % 2 = 1) (oddQ : Q % 2 = 1)
    (accepted : isPrime T Q = true) (hQ : Q < 2 ^ T.bucketBits) (below : n ≤ Q)
    (enough : (Q - n) / 2 < fuel) :
    ∃ q, generatePrimeLoop T fuel n = some q ∧ n ≤ q ∧ q ≤ Q ∧ q % 2 = 1 ∧
      isPrime T q = true ∧ ∀ k, n ≤ k → k < q → k % 2 = 1 → isPrime T k = false := by
  induction fuel generalizing n with
  | zero => omega
  | succ fuel ih =>
    rw [generatePrimeLoop]
    by_cases now : isPrime T n = true
    · rw [if_pos now]
      exact ⟨n, rfl, le_refl n, below, odd, now, fun k low high _ => by omega⟩
    · rw [if_neg now]
      have different : n ≠ Q := fun same => now (same ▸ accepted)
      have next : T.ubucket ((n : Int) + 2) = n + 2 :=
        Config.ubucket_eq_self (x := n + 2) (by omega)
      rw [next]
      obtain ⟨q, found, low, high, oddq, good, least⟩ :=
        ih (n := n + 2) (by omega) (by omega) (by omega)
      refine ⟨q, found, by omega, high, oddq, good, ?_⟩
      intro k lowk highk oddk
      by_cases first : k = n
      · subst first
        exact Bool.eq_false_iff.mpr now
      · exact least k (by omega) highk oddk

/-- The prime search of the constructor returns, for every vector length. -/
theorem generatePrime_square {n : Nat} (hn : n < 2 ^ T.vecBits) :
    ∃ q, generatePrime T (n * n) = some q ∧ n * n ≤ q ∧ q < 2 ^ T.bucketBits ∧ q % 2 = 1 ∧
      isPrime T q = true ∧ ∀ k, n * n ≤ k → k < q → k % 2 = 1 → isPrime T k = false := by
  have square := square_lt_topPrime hn
  have top := topPrime_lt T
  have oddTop : topPrime T % 2 = 1 := by cases T <;> decide
  have accepted := isPrime_of_prime (topPrime_prime T) top
  rw [generatePrime]
  by_cases even : n * n % 2 = 0
  · have start : T.ubucket (((n * n : Nat) : Int) + 1) = n * n + 1 :=
      Config.ubucket_eq_self (x := n * n + 1) (by omega)
    simp only [if_pos even, start]
    obtain ⟨q, found, low, high, oddq, good, least⟩ :=
      generatePrimeLoop_spec (T := T) (2 ^ T.bucketBits) (n := n * n + 1) (by omega)
        oddTop accepted top (by omega) (by omega)
    exact ⟨q, found, by omega, by omega, oddq, good,
      fun k lowk highk oddk => least k (by omega) highk oddk⟩
  · simp only [if_neg even]
    obtain ⟨q, found, low, high, oddq, good, least⟩ :=
      generatePrimeLoop_spec (T := T) (2 ^ T.bucketBits) (n := n * n) (by omega)
        oddTop accepted top (by omega) (by omega)
    exact ⟨q, found, low, by omega, oddq, good, least⟩

end Zeppelin.Sketch.PrimeGenerator
