import Zeppelin.Sketch.AGMSketch

/-! The divisors and moduli that `update` and `query` evaluate. The smallest
vectors have `large_prime = 3`, for which `gen_r` divides by zero; from length 2
on, the only divisor that can be zero is a shift `1 << j` with `32 <= j`, whose
value C++ leaves open. -/
namespace Zeppelin.Sketch

open PrimeGenerator BucketBoruvka

/-- The divisors of `is_good` in the order of its conjunction, which stops at the
first operand that is false or traps: `b % a` and `b / a`, the modulus of
`contains`, that of `powermod` and the two of the fingerprint. -/
def BucketBoruvka.isGoodDivisors (B : Build) (bucket : BucketBoruvka) (n largePrime : Nat)
    (bucketSeed : UInt64) (guessNonzero : Nat) : List Int :=
  let T := B.types
  let quotient := bucket.b.tdiv bucket.a
  if bucket.a = 0 then []
  else if bucket.Traps T then [bucket.a]
  else if bucket.b.tmod bucket.a ≠ 0 then [bucket.a]
  else if ¬0 < quotient then [bucket.a, bucket.a]
  else if ¬quotient ≤ n then [bucket.a, bucket.a, bucket.a]
  else if ¬contains B (T.vec (quotient - 1)) bucketSeed guessNonzero then
    [bucket.a, bucket.a, bucket.a, bucket.a, guessNonzero]
  else
    [bucket.a, bucket.a, bucket.a, bucket.a, guessNonzero, bucket.a, largePrime, largePrime,
      largePrime]

namespace AGMSketch

variable {B : Build} (s : AGMSketch B)

/-- The divisor of `gen_r`, a `ubucket_t`. -/
def genRDivisor : Int := B.types.ubucket ((s.largePrime : Int) - 3)

def updateDivisors (u : Update) : List Int :=
  (List.range s.numBuckets).flatMap fun i =>
    s.genRDivisor :: (List.range s.numGuesses).flatMap fun j =>
      (B.guessNonzero j : Int) ::
        if s.member i j u.index then [(s.largePrime : Int), s.largePrime, s.largePrime] else []

/-- The loops of `query`: a column starts with `gen_r`, a good bucket ends the
search with one more division, and a test that traps ends it. -/
def searchDivisors : List (Nat × Nat) → List Int
  | [] => []
  | (i, j) :: rest =>
    (if j = 0 then [s.genRDivisor] else []) ++
      (s.bucketAt i j).isGoodDivisors B s.n s.largePrime (genBucketSeed B i s.seed)
        (B.guessNonzero j) ++
      match s.goodAt i j with
      | none => []
      | some true => [(s.bucketAt i j).a]
      | some false => searchDivisors rest

def queryDivisors : List Int :=
  if s.alreadyQuered then [] else s.searchDivisors (cells s.numBuckets s.numGuesses)

section Zero

theorem guessNonzero_ne_zero_iff (j : Nat) : B.guessNonzero j ≠ 0 ↔ B.shl1 j ≠ 0 := by
  have bits : 32 ≤ B.types.vecBits := by cases B.types <;> decide
  have width : (2 : Int) ^ 32 ≤ 2 ^ B.types.vecBits :=
    pow_le_pow_right₀ (by decide) bits
  have low := BitVec.le_toInt (B.shl1 j)
  have high := BitVec.toInt_lt (x := B.shl1 j)
  rw [not_iff_not, ← BitVec.toInt_inj, Build.guessNonzero, Config.vec, ← Int.ofNat_inj,
    Word.unsigned_cast]
  constructor
  · intro zero
    have divides := Int.dvd_of_emod_eq_zero zero
    exact Int.eq_zero_of_abs_lt_dvd divides (by rw [abs_lt]; constructor <;> omega)
  · intro zero
    rw [zero]
    rfl

/-- Below level 32 the shift is defined and not zero. -/
theorem shl1_ne_zero {j : Nat} (hj : j < 32) : B.shl1 j ≠ 0 := by
  have table : ∀ j < 32, 1#32 <<< j ≠ 0 := by decide
  rw [B.shl1_eq j hj]
  exact table j hj

theorem isGoodDivisors_ne_zero {bucket : BucketBoruvka} {n largePrime guessNonzero : Nat}
    {bucketSeed : UInt64} (prime : largePrime ≠ 0) (guess : guessNonzero ≠ 0) :
    ∀ d ∈ bucket.isGoodDivisors B n largePrime bucketSeed guessNonzero, d ≠ 0 := by
  intro d member
  rw [isGoodDivisors] at member
  by_cases zero : bucket.a = 0
  · simp [zero] at member
  · simp only [if_neg zero] at member
    split_ifs at member
    all_goals
      simp only [List.mem_cons, List.not_mem_nil, or_false] at member
      omega

theorem genRDivisor_eq : s.genRDivisor = (s.largePrime : Int) - 3 := by
  have large := s.two_le_largePrime
  have odd := s.largePrime_spec.2.2.1
  have below := s.largePrime_lt
  have cast : (s.largePrime : Int) - 3 = ((s.largePrime - 3 : Nat) : Int) := by omega
  rw [genRDivisor, cast, Config.ubucket_eq_self (by omega)]

/-- The constructor's prime is 3 for the vector of length 1, and the base of a
column has no place in `[2, large_prime - 2]`. -/
theorem two_le_n_of_range {i : Nat} (range : 2 ≤ s.columnR i ∧ s.columnR i ≤ s.largePrime - 2) :
    2 ≤ s.n := by
  by_contra short
  have found := s.largePrime_eq
  have small : ∀ (T : Config), ∀ n < 2, generatePrime T (n * n) = some 3 := by
    intro T
    cases T with
    | native => decide +kernel
    | wide => decide +kernel
  rw [small B.types s.n (by omega)] at found
  have three := Option.some.inj found
  omega

theorem searchDivisors_ne_zero (hn : 2 ≤ s.n) {visited : List (Nat × Nat)}
    (guesses : ∀ cell ∈ visited, B.guessNonzero cell.2 ≠ 0) :
    ∀ d ∈ s.searchDivisors visited, d ≠ 0 := by
  have prime := s.five_le_largePrime hn
  induction visited with
  | nil => simp [searchDivisors]
  | cons cell rest ih =>
    intro d member
    have first := guesses cell List.mem_cons_self
    rw [searchDivisors, List.mem_append, List.mem_append] at member
    rcases member with (column | test) | last
    · split at column
      · rw [List.mem_singleton.mp column, genRDivisor_eq]
        omega
      · simp at column
    · exact isGoodDivisors_ne_zero (by omega) first d test
    · split at last
      · simp at last
      · rename_i good
        rw [List.mem_singleton.mp last]
        simp only [goodAt, isGood, Option.ite_none_left_eq_some, Option.some.injEq,
          Bool.and_eq_true, decide_eq_true_eq] at good
        exact good.2.1.1.1.1.1
      · exact ih (fun c hc => guesses c (List.mem_cons_of_mem cell hc)) d last

/-- No level's shift is zero when those from 32 on are not. -/
theorem guesses_ne_zero (shifts : ∀ j < s.numGuesses, 32 ≤ j → B.shl1 j ≠ 0) {j : Nat}
    (hj : j < s.numGuesses) : B.guessNonzero j ≠ 0 := by
  rw [guessNonzero_ne_zero_iff]
  by_cases defined : j < 32
  · exact shl1_ne_zero defined
  · exact shifts j hj (by omega)

theorem updateDivisors_ne_zero (hn : 2 ≤ s.n)
    (guesses : ∀ j < s.numGuesses, B.guessNonzero j ≠ 0) (u : Update) :
    ∀ d ∈ s.updateDivisors u, d ≠ 0 := by
  have prime := s.five_le_largePrime hn
  intro d member
  simp only [updateDivisors, List.mem_flatMap, List.mem_range, List.mem_cons] at member
  obtain ⟨i, -, rfl | ⟨j, hj, rfl | kept⟩⟩ := member
  · rw [genRDivisor_eq]
    omega
  · exact_mod_cast guesses j hj
  · split at kept
    · simp only [List.mem_cons, List.not_mem_nil, or_false] at kept
      omega
    · simp at kept

theorem queryDivisors_ne_zero (hn : 2 ≤ s.n)
    (guesses : ∀ j < s.numGuesses, B.guessNonzero j ≠ 0) : ∀ d ∈ s.queryDivisors, d ≠ 0 := by
  intro d member
  rw [queryDivisors] at member
  split at member
  · simp at member
  · refine s.searchDivisors_ne_zero hn ?_ d member
    intro cell listed
    exact guesses cell.2 (mem_cells.mp listed).2

end Zero

/-- No divisor of an update or of a query is zero, and every base is in its
documented range, exactly when the vector has at least two entries and no shift
of a level from 32 on gives zero. -/
theorem divisors_ne_zero_iff :
    ((∀ u : Update, u.index < s.n → ∀ d ∈ s.updateDivisors u, d ≠ 0) ∧
        (∀ d ∈ s.queryDivisors, d ≠ 0) ∧
        ∀ i < s.numBuckets, 2 ≤ s.columnR i ∧ s.columnR i ≤ s.largePrime - 2) ↔
      2 ≤ s.n ∧ ∀ j < s.numGuesses, 32 ≤ j → B.shl1 j ≠ 0 := by
  have columns : 0 < s.numBuckets := B.bucketGen_pos s.n
  constructor
  · rintro ⟨updates, -, ranges⟩
    have long := s.two_le_n_of_range (ranges 0 columns)
    refine ⟨long, fun j hj _ => ?_⟩
    rw [← guessNonzero_ne_zero_iff]
    have divisor := updates ⟨0, 0⟩ (show 0 < s.n by omega) (B.guessNonzero j) (by
      simp only [updateDivisors, List.mem_flatMap, List.mem_range, List.mem_cons]
      exact ⟨0, columns, Or.inr ⟨j, hj, Or.inl rfl⟩⟩)
    exact_mod_cast divisor
  · rintro ⟨long, shifts⟩
    have guesses : ∀ j < s.numGuesses, B.guessNonzero j ≠ 0 := fun _ => s.guesses_ne_zero shifts
    exact ⟨fun u _ => s.updateDivisors_ne_zero long guesses u,
      s.queryDivisors_ne_zero long guesses, fun i _ => s.genR_range _ long⟩

/-- The first update of a vector of length 1 divides by zero. -/
theorem divisors_length_one :
    ¬∀ d ∈ (new (Build.sample .native) 1 0 (by decide)).updateDivisors ⟨0, 1⟩, d ≠ 0 := by
  decide +kernel

end AGMSketch
end Zeppelin.Sketch
