import Zeppelin.Number.Fermat
import Zeppelin.Sketch.PrimeSearch

/-! What `IsPrime` decides. The loop meant to take the factors of two out of
`n - 1` never runs, so the witness test is Fermat's test with twelve bases and
accepts the numbers that are pseudoprime to all of them. The search of the
constructor finds the least odd number at or above `n * n` that is accepted. -/
namespace Zeppelin.Sketch.PrimeGenerator

variable {T : Config} {n : Nat}

section Test

theorem powermod_pred_iff (odd : n % 2 = 1) (large : 1 < n) (hn : n < 2 ^ T.bucketBits) {a : Nat}
    (positive : 0 < a) (below : a < n) :
    (powermod T a (n - 1) n = 1 ∨ powermod T a (n - 1) n = n - 1) ↔ n.ProbablePrime a := by
  rw [powermod_eq large hn (below.trans hn), Nat.probablePrime_iff_modEq n positive, Nat.ModEq,
    Nat.mod_eq_of_lt large]
  constructor
  · rintro (one | last)
    · exact one
    · exact absurd last (Number.pow_pred_mod_ne_pred odd large a)
  · exact Or.inl

/-- Without a squaring to try, a witness passes exactly when Fermat's test does. -/
theorem witnessLoop_iff (odd : n % 2 = 1) (large : 1 < n) (hn : n < 2 ^ T.bucketBits)
    {tests : List Nat} (within : ∀ a ∈ tests, 0 < a ∧ a < n) :
    witnessLoop T n (n - 1) 0 tests = true ↔ ∀ a ∈ tests, n.ProbablePrime a := by
  induction tests with
  | nil => simp [witnessLoop]
  | cons a rest ih =>
    obtain ⟨positive, below⟩ := within a List.mem_cons_self
    have tail := ih fun b hb => within b (List.mem_cons_of_mem a hb)
    have test := powermod_pred_iff (T := T) odd large hn positive below
    rw [witnessLoop, if_neg (by omega), List.forall_mem_cons, ← test, ← tail]
    by_cases passed : powermod T a (n - 1) n = 1 ∨ powermod T a (n - 1) n = n - 1
    · simp only [passed, if_true, true_and]
    · have idle : approveLoop T n (n - 1) (0 - 1) a = false := rfl
      simp only [passed, idle, if_false, false_and, Bool.false_eq_true]

/-- Up to the largest witness the test is exact. -/
theorem isPrime_small (T : Config) : ∀ n < 38, isPrime T n = true ↔ n.Prime := by
  cases T with
  | native => decide +kernel
  | wide => decide +kernel

theorem not_fermatPsp_small : ∀ n < 38, ¬n.FermatPsp 2 := by decide +kernel

theorem not_fermatPsp_even (even : n % 2 = 0) : ¬n.FermatPsp 2 := by
  rintro ⟨divides, -, large⟩
  have coprime := Nat.coprime_of_probablePrime divides large.le (by decide)
  have common : 2 ∣ Nat.gcd n 2 := Nat.dvd_gcd (Nat.dvd_of_mod_eq_zero even) (dvd_refl 2)
  rw [coprime] at common
  exact absurd common (by decide)

/-- `IsPrime` accepts the primes and the numbers that are pseudoprime to all
twelve bases, and nothing else. -/
theorem isPrime_iff (hn : n < 2 ^ T.bucketBits) :
    isPrime T n = true ↔ n.Prime ∨ ∀ a ∈ witnesses, n.FermatPsp a := by
  by_cases small : n < 38
  · have two : ¬∀ a ∈ witnesses, n.FermatPsp a := fun all =>
      not_fermatPsp_small n small (all 2 (by decide))
    rw [isPrime_small T n small, or_iff_left two]
  · by_cases even : n % 2 = 0
    · have composite : ¬n.Prime := by
        intro prime
        have := prime.eq_two_or_odd
        omega
      have two : ¬∀ a ∈ witnesses, n.FermatPsp a := fun all =>
        not_fermatPsp_even even (all 2 (by decide))
      rw [isPrime, if_neg (by omega), if_pos (Or.inr even)]
      simp only [Bool.false_eq_true, false_iff, not_or]
      exact ⟨composite, two⟩
    · have odd : n % 2 = 1 := by omega
      have bases : ∀ a ∈ witnesses, 0 < a ∧ a < 38 := by decide
      have within : ∀ a ∈ witnesses, 0 < a ∧ a < n := fun a member =>
        ⟨(bases a member).1, lt_of_lt_of_le (bases a member).2 (by omega)⟩
      rw [isPrime, if_neg (by omega), if_neg (by omega), splitLoop_odd odd,
        witnessLoop_iff odd (by omega) hn within]
      constructor
      · intro all
        by_cases prime : n.Prime
        · exact Or.inl prime
        · exact Or.inr fun a member => ⟨all a member, prime, by omega⟩
      · rintro (prime | pseudo) a member
        · have fermat := powermod_fermat (T := T) prime hn (within a member).1 (within a member).2
          exact (powermod_pred_iff odd (by omega) hn (within a member).1 (within a member).2).mp
            (Or.inl fermat)
        · exact (pseudo a member).1

/-- Below `2 ^ 64` the test decides primality of exactly the numbers that are
not pseudoprime to all twelve bases. -/
theorem isPrime_decides_iff (T : Config) {n : Nat} (hn : n < 2 ^ 64) :
    (isPrime T n = true ↔ n.Prime) ↔ ¬∀ a ∈ witnesses, n.FermatPsp a := by
  have width : 2 ^ 64 ≤ 2 ^ T.bucketBits := by cases T <;> decide
  rw [isPrime_iff (hn.trans_le width)]
  constructor
  · intro decides pseudo
    have prime := decides.mp (Or.inr pseudo)
    exact (pseudo 2 (by decide)).2.1 prime
  · intro regular
    rw [or_iff_left regular]

theorem isPrime_decides_91 : isPrime .native 91 = true ↔ Nat.Prime 91 := by
  refine (isPrime_decides_iff .native (by decide)).mpr fun pseudo => ?_
  exact absurd (pseudo 2 (by decide)) (by decide +kernel)

/-- `252601 = 41 * 61 * 101` is a Carmichael number without a factor among the
bases. -/
theorem isPrime_carmichael :
    ¬∀ n < 2 ^ 64, (isPrime .native n = true ↔ n.Prime) := by
  intro decides
  have accepted : isPrime .native 252601 = true := by decide +kernel
  have prime := (decides 252601 (by decide)).mp accepted
  have factor : 41 ∣ 252601 := by decide
  have same := (Nat.prime_dvd_prime_iff_eq (by decide) prime).mp factor
  exact absurd same (by decide)

end Test

section Search

/-- The candidate of the search after `i` steps `n += 2`. -/
def candidate (T : Config) (start : Nat) : Nat → Nat
  | 0 => start
  | i + 1 => T.ubucket ((candidate T start i : Int) + 2)

theorem candidate_eq {start i : Nat} (fits : start + 2 * i < 2 ^ T.bucketBits) :
    candidate T start i = start + 2 * i := by
  induction i with
  | zero => rfl
  | succ i ih =>
    rw [candidate, ih (by omega)]
    exact Config.ubucket_eq_self (x := start + 2 * i + 2) (by omega)

/-- The candidate the search starts from, `n` or `n++`. -/
def firstCandidate (T : Config) (n : Nat) : Nat :=
  if n % 2 = 0 then T.ubucket ((n : Int) + 1) else n

theorem firstCandidate_square (hn : n < 2 ^ T.vecBits) :
    (firstCandidate T (n * n) = n * n ∨ firstCandidate T (n * n) = n * n + 1) ∧
      firstCandidate T (n * n) % 2 = 1 := by
  have square := square_lt_topPrime hn
  have top := topPrime_lt T
  have next : T.ubucket (((n * n : Nat) : Int) + 1) = n * n + 1 :=
    Config.ubucket_eq_self (x := n * n + 1) (by omega)
  rw [firstCandidate]
  split
  · rw [next]
    exact ⟨Or.inr rfl, by omega⟩
  · exact ⟨Or.inl rfl, by omega⟩

/-- The search of the constructor returns the least odd number at or above
`n * n` that the test accepts, without a square or a step that wraps; the test
accepts every prime, so no candidate it leaves behind is one. -/
theorem generatePrime_least (T : Config) {n : Nat} (hn : n < 2 ^ T.vecBits) :
    T.ubucket ((n : Int) * n) = n * n ∧
      (∀ p < 2 ^ T.bucketBits, p.Prime → isPrime T p = true) ∧
      ∃ q steps, generatePrime T (T.ubucket ((n : Int) * n)) = some q ∧
        (n * n ≤ q ∧ q % 2 = 1 ∧ isPrime T q = true ∧
          ∀ k, n * n ≤ k → k < q → k % 2 = 1 → isPrime T k = false ∧ ¬k.Prime) ∧
        q = candidate T (firstCandidate T (n * n)) steps ∧
        ∀ i ≤ steps, candidate T (firstCandidate T (n * n)) i = firstCandidate T (n * n) + 2 * i ∧
          firstCandidate T (n * n) + 2 * i < 2 ^ T.bucketBits := by
  have square := square_lt_topPrime hn
  have top := topPrime_lt T
  have exact : T.ubucket ((n : Int) * n) = n * n := by
    rw [← Nat.cast_mul]
    exact Config.ubucket_eq_self (by omega)
  obtain ⟨q, found, low, high, odd, accepted, least⟩ := generatePrime_square hn
  obtain ⟨start, oddStart⟩ := firstCandidate_square hn
  have steps : firstCandidate T (n * n) + 2 * ((q - firstCandidate T (n * n)) / 2) = q := by omega
  refine ⟨exact, fun p hp prime => isPrime_of_prime prime hp, q,
    (q - firstCandidate T (n * n)) / 2, exact ▸ found, ⟨low, odd, accepted, ?_⟩, ?_, ?_⟩
  · intro k lowk highk oddk
    have rejected := least k lowk highk oddk
    refine ⟨rejected, fun prime => ?_⟩
    rw [isPrime_of_prime prime (by omega)] at rejected
    contradiction
  · rw [candidate_eq (by omega), steps]
  · intro i hi
    have fits : firstCandidate T (n * n) + 2 * i < 2 ^ T.bucketBits := by omega
    exact ⟨candidate_eq fits, fits⟩

theorem generatePrime_least_two :
    ∃ q, generatePrime .native 4 = some q ∧ 4 ≤ q ∧ isPrime .native q = true := by
  obtain ⟨-, -, q, -, found, ⟨low, -, accepted, -⟩, -⟩ :=
    generatePrime_least .native (n := 2) (by decide)
  exact ⟨q, found, low, accepted⟩

end Search

end Zeppelin.Sketch.PrimeGenerator
