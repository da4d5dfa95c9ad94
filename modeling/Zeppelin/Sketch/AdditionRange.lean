import Zeppelin.Sketch.Addition

/-! The range of sketch addition. `operator+` and `operator+=` add two
fingerprints in `ubucket_t` before they reduce; the sum fits for all reachable
sketches exactly while the square of the vector length is in the lower half of
`ubucket_t`, well below the largest length that `vec_t` admits. -/
namespace Zeppelin.Sketch

open PrimeGenerator BucketBoruvka

section Half

variable {T : Config} {n : Nat}

theorem two_mul_half (T : Config) : 2 * 2 ^ (T.bucketBits - 1) = 2 ^ T.bucketBits := by
  rw [← pow_succ', Nat.sub_add_cancel T.bucketBits_pos]

/-- A prime between the largest square in the lower half of `ubucket_t` and the
half itself. -/
def halfPrime : Config → Nat
  | .native => 9223372036757716993
  | .wide => 170141183460469231728946687420768714753

theorem halfPrime_native : (halfPrime .native).Prime := by
  apply prime_of_certificate (T := .native) (a := 10)
    (List.replicate 16 2 ++ [3, 3, 3, 7, 11, 41, 41, 61, 509, 1297])
  · decide +kernel
  · decide +kernel
  · decide +kernel
  · decide +kernel
  · intro q member
    simp only [List.mem_append, List.mem_replicate, List.mem_cons, List.not_mem_nil,
      or_false] at member
    rcases member with ⟨-, rfl⟩ | rfl | rfl | rfl | rfl | rfl | rfl | rfl | rfl | rfl | rfl <;>
      norm_num
  · decide +kernel
  · decide +kernel

theorem halfPrime_wide : (halfPrime .wide).Prime := by
  apply prime_of_certificate (T := .wide) (a := 7)
    (List.replicate 45 2 ++ [3, 3, 3, 13, 13, 47, 73, 151, 2141, 7681, 8387, 14831])
  · decide +kernel
  · decide +kernel
  · decide +kernel
  · decide +kernel
  · intro q member
    simp only [List.mem_append, List.mem_replicate, List.mem_cons, List.not_mem_nil,
      or_false] at member
    rcases member with ⟨-, rfl⟩ | rfl | rfl | rfl | rfl | rfl | rfl | rfl | rfl | rfl | rfl |
      rfl | rfl <;> norm_num
  · decide +kernel
  · decide +kernel

theorem halfPrime_prime (T : Config) : (halfPrime T).Prime := by
  cases T
  · exact halfPrime_native
  · exact halfPrime_wide

/-- The largest length whose square is in the lower half of `ubucket_t`. -/
def halfRoot : Config → Nat
  | .native => 3037000499
  | .wide => 13043817825332782212

theorem le_halfRoot_iff (T : Config) (n : Nat) : n ≤ halfRoot T ↔ n * n < 2 ^ (T.bucketBits - 1) := by
  constructor
  · intro small
    have square := Nat.mul_le_mul small small
    have below : halfRoot T * halfRoot T < 2 ^ (T.bucketBits - 1) := by cases T <;> decide
    omega
  · intro low
    by_contra large
    have next : halfRoot T + 1 ≤ n := by omega
    have square := Nat.mul_le_mul next next
    have above : 2 ^ (T.bucketBits - 1) < (halfRoot T + 1) * (halfRoot T + 1) := by
      cases T <;> decide
    omega

/-- A square in the upper half leaves room for a prime above it only. -/
theorem upper_square (high : ¬n * n < 2 ^ (T.bucketBits - 1)) :
    2 ^ (T.bucketBits - 1) + 2 ≤ n * n := by
  have next : halfRoot T + 1 ≤ n := by
    have := (not_congr (le_halfRoot_iff T n)).mpr high
    omega
  have square := Nat.mul_le_mul next next
  have above : 2 ^ (T.bucketBits - 1) + 2 ≤ (halfRoot T + 1) * (halfRoot T + 1) := by
    cases T <;> decide
  omega

end Half

namespace AGMSketch

variable {B : Build}

/-- The constructor's prime is in the lower half when the square is. -/
theorem largePrime_lt_half (s : AGMSketch B) (low : s.n * s.n < 2 ^ (B.types.bucketBits - 1)) :
    s.largePrime < 2 ^ (B.types.bucketBits - 1) := by
  obtain ⟨q, found, -, -, -, -, least⟩ := generatePrime_square s.n_lt
  rw [s.largePrime_eq] at found
  cases Option.some.inj found
  have small := (le_halfRoot_iff B.types s.n).mpr low
  have square := Nat.mul_le_mul small small
  have room : halfRoot B.types * halfRoot B.types ≤ halfPrime B.types ∧
      halfPrime B.types < 2 ^ (B.types.bucketBits - 1) ∧ halfPrime B.types % 2 = 1 ∧
      2 ^ (B.types.bucketBits - 1) < 2 ^ B.types.bucketBits := by cases B.types <;> decide
  obtain ⟨above, below, odd, half⟩ := room
  have accepted := isPrime_of_prime (halfPrime_prime B.types) (below.trans half)
  by_contra large
  have rejected := least (halfPrime B.types) (by omega) (by omega) odd
  rw [accepted] at rejected
  contradiction

/-- Both additions of any two reachable sketches compute every new fingerprint
without leaving `ubucket_t`. -/
def SumsExact (B : Build) (n : Nat) (seed : Int64) (hn : n < 2 ^ B.types.vecBits) : Prop :=
  ∀ s t, Reachable B n seed hn s → Reachable B n seed hn t →
    ∃ sum assigned, s.add t = some sum ∧ s.addAssign t = some assigned ∧
      ∀ i < s.numBuckets, ∀ j < s.numGuesses,
        (s.bucketAt i j).c + (t.bucketAt i j).c < 2 ^ B.types.bucketBits ∧
        (sum.bucketAt i j).c = ((s.bucketAt i j).c + (t.bucketAt i j).c) % s.largePrime ∧
        (assigned.bucketAt i j).c = ((s.bucketAt i j).c + (t.bucketAt i j).c) % s.largePrime

section Range

variable {n : Nat} {hn : n < 2 ^ B.types.vecBits} {seed : Int64}

theorem sumsExact_of_low (low : n * n < 2 ^ (B.types.bucketBits - 1)) : SumsExact B n seed hn := by
  intro s t hs ht
  have same := hs.compatible ht
  obtain ⟨length, -, reduced⟩ := hs.invariant
  obtain ⟨-, -, reduced'⟩ := ht.invariant
  obtain ⟨sum, found, sumLength, -, -, merged⟩ := add_spec same
  obtain ⟨assigned, found', assignedLength, -, -, merged'⟩ := addAssign_spec same
  have half := s.largePrime_lt_half (by rwa [length])
  have whole := two_mul_half B.types
  refine ⟨sum, assigned, found, found', ?_⟩
  intro i hi j hj
  have left := s.forall_mem_buckets.mp reduced i hi j hj
  have right := t.forall_mem_buckets.mp reduced' i (by rwa [numBuckets, ← same.1])
    j (by rwa [numGuesses, ← same.1])
  rw [← same.2.2] at right
  have fits : (s.bucketAt i j).c + (t.bucketAt i j).c < 2 ^ B.types.bucketBits := by omega
  have exact : (mergeBucket B.types s.largePrime (s.bucketAt i j) (t.bucketAt i j)).c =
      ((s.bucketAt i j).c + (t.bucketAt i j).c) % s.largePrime := by
    rw [mergeBucket, ← Nat.cast_add, Config.ubucket_eq_self fits]
  refine ⟨fits, ?_, ?_⟩
  · rw [merged_bucketAt same sumLength merged hi hj, exact]
  · rw [merged_bucketAt same assignedLength merged' hi hj, exact]

/-- Under a zero hash every base is 2, and a deletion at index 0 leaves the
fingerprint `large_prime - 2`. -/
theorem deleted_fingerprint (seed : Int64) (hn : n < 2 ^ B.types.vecBits)
    (zero : B.XXH64 = fun _ _ => 0) :
    ((((new B n seed hn).update ⟨0, -1⟩).bucketAt 0 0).c : Int) =
      (new B n seed hn).largePrime - 2 := by
  let s := new B n seed hn
  have large := s.two_le_largePrime
  have odd := s.largePrime_spec.2.2.1
  have below := s.largePrime_lt
  have bits : 2 ≤ B.types.vecBits := by cases B.types <;> decide
  have base : s.columnR 0 = 2 := by
    rw [columnR, genBucketSeed, zero, genR]
    exact congrArg (2 + ·) (Nat.zero_mod _)
  have kept := s.member_zero 0 0
  have next : B.types.vec (((0 : Nat) : Int) + 1) = 1 := by cases B.types <;> decide
  have power : powermod B.types 2 1 s.largePrime = 2 := by
    rw [powermod_eq large below (by omega), pow_one]
    exact Nat.mod_eq_of_lt (by omega)
  have cell := s.update_bucketAt ⟨0, -1⟩ (B.bucketGen_pos n) (B.guessGen_pos n)
  rw [if_pos kept, base, BucketBoruvka.update, next, power] at cell
  have stored := accumulate_c (T := B.types) (s.bucketAt 0 0) ⟨0, -1⟩
    (show 0 < s.largePrime by omega) below (by rw [new_bucketAt]; change 0 < _; omega)
    (show 2 < s.largePrime by omega)
  rw [← cell, new_bucketAt] at stored
  refine stored.trans ?_
  change ((0 : Int) + -1 * 2) % s.largePrime = s.largePrime - 2
  rw [← Int.add_emod_right]
  exact Int.emod_eq_of_lt (by omega) (by omega)

/-- In the upper half two such fingerprints overflow. -/
theorem not_sumsExact_of_high (zero : B.XXH64 = fun _ _ => 0)
    (high : ¬n * n < 2 ^ (B.types.bucketBits - 1)) : ¬SumsExact B n seed hn := by
  intro exact
  have reached : Reachable B n seed hn ((new B n seed hn).update ⟨0, -1⟩) :=
    Reachable.fresh.update ⟨0, -1⟩
  obtain ⟨sum, assigned, -, -, cell⟩ := exact _ _ reached reached
  obtain ⟨fits, -⟩ := cell 0 (B.bucketGen_pos n) 0 (B.guessGen_pos n)
  have stored := deleted_fingerprint seed hn zero
  have square := upper_square high
  have above : n * n ≤ (new B n seed hn).largePrime := (new B n seed hn).largePrime_spec.1
  have whole := two_mul_half B.types
  omega

end Range

/-- For every vector length and seed, no addition of reachable sketches leaves
`ubucket_t`, whatever the hash, exactly when the square of the length is in its
lower half. -/
theorem sumsExact_iff (B : Build) {n : Nat} (hn : n < 2 ^ B.types.vecBits) (seed : Int64) :
    (∀ hash, SumsExact { B with XXH64 := hash } n seed hn) ↔
      n * n < 2 ^ (B.types.bucketBits - 1) := by
  constructor
  · intro exact
    by_contra high
    exact not_sumsExact_of_high (B := { B with XXH64 := fun _ _ => 0 }) rfl high (exact _)
  · intro low hash
    exact sumsExact_of_low low

theorem sumsExact_sample : SumsExact (Build.sample .native) 1000 0 (by decide) :=
  (sumsExact_iff (Build.sample .native) (by decide) 0).mpr (by decide) (Build.sample .native).XXH64

/-- At the largest length of the native configuration the sum of two reachable
fingerprints overflows. -/
theorem sumsExact_overflow :
    ¬SumsExact { Build.sample .native with XXH64 := fun _ _ => 0 } (2 ^ 32 - 1) 0 (by decide) :=
  not_sumsExact_of_high rfl (by decide)

end AGMSketch
end Zeppelin.Sketch
