import Zeppelin.Sketch.BatchUpdate

/-! The diagnostic printer `operator<<` of a sketch. For every bucket it prints
which indices the bucket contains, its contents, `r` and whether it is good, and
it takes the seed of the bucket from its position, as `batch_update` does and
`update` and `query` do not. The index of the membership row is an `unsigned`,
so a row of a longer vector never ends; and its test of a bucket traps where
that of `query` does. How the stream writes numbers is left out. -/
namespace Zeppelin.Sketch

open PrimeGenerator BucketBoruvka

structure PrintedBucket where
  row : List Char
  a : Int
  b : Int
  c : Nat
  r : Nat
  verdict : String
  deriving DecidableEq

namespace AGMSketch

variable {B : Build} (s : AGMSketch B)

/-- The loop `for (unsigned k = 0; k < sketch.n; k++)`. -/
def rowLoop (bucketSeed : UInt64) (guessNonzero : Nat) : Nat → Nat → List Char → Option (List Char)
  | 0, _, _ => none
  | fuel + 1, k, row =>
    if k < s.n then
      rowLoop bucketSeed guessNonzero fuel (Word.unsigned 32 ((k : Int) + 1))
        (row ++ [if contains B k bucketSeed guessNonzero then '1' else '0'])
    else some row

/-- A row of more than `2 ^ 32` steps repeats an index, so the fuel never cuts
off a row that would end. -/
def printBucket (i j : Nat) : Option PrintedBucket := do
  let bucketId := i * s.numGuesses + j
  let bucket := s.buckets.getD bucketId {}
  let bucketSeed := genBucketSeed B bucketId s.seed
  let r := genR bucketSeed s.largePrime
  let row ← s.rowLoop bucketSeed (B.guessNonzero j) (2 ^ 32) 0 []
  let good ← bucket.isGood B s.n s.largePrime bucketSeed r (B.guessNonzero j)
  pure
    { row := row
      a := bucket.a
      b := bucket.b
      c := bucket.c
      r := r
      verdict := if good then "good" else "bad" }

/-- The prime and the buckets, column by column; `none` is a printer that never
returns or traps. -/
def print : Option (Nat × List (List PrintedBucket)) := do
  let printed ← (List.range s.numBuckets).mapM fun i =>
    (List.range s.numGuesses).mapM fun j => s.printBucket i j
  pure (s.largePrime, printed)

/-- Every bucket is marked good exactly when `query` finds it good, and its row
marks exactly the indices that `update` puts into it. -/
def PrintsFaithfully : Prop :=
  ∃ printed, s.print = some (s.largePrime, printed) ∧
    ∀ i < s.numBuckets, ∀ j < s.numGuesses, ∃ bucket,
      (printed[i]?.bind (·[j]?)) = some bucket ∧
        (bucket.verdict = "good" ↔ s.goodAt i j = some true) ∧
        bucket.row = (List.range s.n).map fun k => if s.member i j k then '1' else '0'

section Rows

variable {bucketSeed : UInt64} {guessNonzero : Nat}

theorem rowLoop_some (bucketSeed : UInt64) (guessNonzero : Nat) (short : s.n < 2 ^ 32)
    {fuel k : Nat} (within : k ≤ s.n) (enough : s.n < k + fuel) (row : List Char) :
    s.rowLoop bucketSeed guessNonzero fuel k row =
      some (row ++ (List.range' k (s.n - k)).map fun k =>
        if contains B k bucketSeed guessNonzero then '1' else '0') := by
  induction fuel generalizing k row with
  | zero => omega
  | succ fuel ih =>
    rw [rowLoop]
    by_cases more : k < s.n
    · have next : Word.unsigned 32 ((k : Int) + 1) = k + 1 :=
        Word.unsigned_natCast (x := k + 1) (by omega)
      have left : s.n - k = (s.n - (k + 1)) + 1 := by omega
      rw [if_pos more, next, ih (by omega) (by omega), left, List.range'_succ, List.map_cons,
        List.append_assoc, List.singleton_append]
    · have done : s.n - k = 0 := by omega
      rw [if_neg more, done, List.range'_zero, List.map_nil, List.append_nil]

theorem rowLoop_none (long : 2 ^ 32 ≤ s.n) {fuel k : Nat} (small : k < 2 ^ 32) (row : List Char) :
    s.rowLoop bucketSeed guessNonzero fuel k row = none := by
  induction fuel generalizing k row with
  | zero => rfl
  | succ fuel ih =>
    rw [rowLoop, if_pos (by omega)]
    exact ih (Word.unsigned_lt _ _) _

end Rows

section Printed

/-- A bucket as it is printed when the row ends and the test has a value. -/
def printedBucket (i j : Nat) : PrintedBucket where
  row := (List.range s.n).map fun k =>
    if contains B k (s.batchSeed i j) (B.guessNonzero j) then '1' else '0'
  a := (s.bucketAt i j).a
  b := (s.bucketAt i j).b
  c := (s.bucketAt i j).c
  r := genR (s.batchSeed i j) s.largePrime
  verdict :=
    if (s.bucketAt i j).isGood B s.n s.largePrime (s.batchSeed i j)
        (genR (s.batchSeed i j) s.largePrime) (B.guessNonzero j) = some true then "good" else "bad"

theorem printBucket_some (short : s.n < 2 ^ 32) {i j : Nat}
    (quiet : ¬(s.bucketAt i j).Traps B.types) :
    s.printBucket i j = some (s.printedBucket i j) := by
  have row := s.rowLoop_some (genBucketSeed B (i * s.numGuesses + j) s.seed) (B.guessNonzero j)
    short (Nat.zero_le _) (show s.n < 0 + 2 ^ 32 by omega) []
  rw [List.nil_append, Nat.sub_zero, ← List.range_eq_range'] at row
  obtain ⟨good, test⟩ := Option.ne_none_iff_exists'.mp
    ((isGood_eq_none_iff s.n s.largePrime (s.batchSeed i j) (genR (s.batchSeed i j) s.largePrime)
      (B.guessNonzero j)).not.mpr quiet)
  simp only [printedBucket, test, Option.some.injEq]
  simp only [bucketAt, batchSeed] at test
  rw [printBucket, row, test]
  rfl

/-- A test that traps ends the printer without a result. -/
theorem printBucket_none {i j : Nat} (trap : (s.bucketAt i j).Traps B.types) :
    s.printBucket i j = none := by
  have test := (isGood_eq_none_iff s.n s.largePrime (s.batchSeed i j)
    (genR (s.batchSeed i j) s.largePrime) (B.guessNonzero j)).mpr trap
  simp only [bucketAt, batchSeed] at test
  simp only [printBucket, test, Option.bind_eq_bind, Option.bind_none, Option.bind_fun_none]

theorem print_some (short : s.n < 2 ^ 32) (quiet : s.NoTraps) :
    s.print = some (s.largePrime, (List.range s.numBuckets).map fun i =>
      (List.range s.numGuesses).map fun j => s.printedBucket i j) := by
  have columns : (List.range s.numBuckets).mapM (fun i =>
      (List.range s.numGuesses).mapM fun j => s.printBucket i j) =
      some ((List.range s.numBuckets).map fun i =>
        (List.range s.numGuesses).map fun j => s.printedBucket i j) := by
    apply Sweep.mapM_eq_some
    intro i hi
    apply Sweep.mapM_eq_some
    intro j hj
    exact s.printBucket_some short (quiet i (List.mem_range.mp hi) j (List.mem_range.mp hj))
  rw [print, columns]
  rfl

theorem print_none {i j : Nat} (hi : i < s.numBuckets) (hj : j < s.numGuesses)
    (fails : s.printBucket i j = none) : s.print = none := by
  have column : (List.range s.numGuesses).mapM (fun j => s.printBucket i j) = none :=
    Sweep.mapM_eq_none (List.mem_range.mpr hj) fails
  have columns := Sweep.mapM_eq_none (f := fun i =>
    (List.range s.numGuesses).mapM fun j => s.printBucket i j) (List.mem_range.mpr hi) column
  rw [print, columns]
  rfl

/-- A printer that returns has ended its rows and has tested no bucket that traps. -/
theorem short_of_print (returns : s.print ≠ none) : s.n < 2 ^ 32 ∧ s.NoTraps := by
  constructor
  · by_contra long
    apply returns
    apply s.print_none (B.bucketGen_pos s.n) (B.guessGen_pos s.n)
    rw [printBucket, s.rowLoop_none (by omega) (by decide)]
    rfl
  · intro i hi j hj trap
    exact returns (s.print_none hi hj (s.printBucket_none trap))

theorem printedBucket_verdict_iff {i j : Nat} (quiet : ¬(s.bucketAt i j).Traps B.types) :
    ((s.printedBucket i j).verdict = "good" ↔ s.goodAt i j = some true) ↔
      (s.bucketAt i j).isGood B s.n s.largePrime (s.batchSeed i j)
        (genR (s.batchSeed i j) s.largePrime) (B.guessNonzero j) = s.goodAt i j := by
  have mark : ∀ good : Option Bool, (if good = some true then "good" else "bad") = "good" ↔
      good = some true := by
    rintro (_ | _ | _) <;> decide
  have decided : ∀ bucketSeed r, (s.bucketAt i j).isGood B s.n s.largePrime bucketSeed r
      (B.guessNonzero j) ≠ none :=
    fun bucketSeed r => (isGood_eq_none_iff _ _ bucketSeed r _).not.mpr quiet
  have same : ∀ x y : Option Bool, x ≠ none → y ≠ none →
      ((x = some true ↔ y = some true) ↔ x = y) := by
    rintro (_ | _ | _) (_ | _ | _) <;> decide
  rw [printedBucket, mark]
  exact same _ _ (decided _ _) (decided _ _)

theorem printedBucket_row_iff (i j : Nat) :
    (s.printedBucket i j).row =
        ((List.range s.n).map fun k => if s.member i j k then '1' else '0') ↔
      ∀ k < s.n, contains B k (s.batchSeed i j) (B.guessNonzero j) = s.member i j k := by
  have digit : ∀ x y : Bool, (if x then '1' else '0') = (if y then '1' else '0') ↔ x = y := by decide
  simp only [printedBucket, List.map_inj_left, List.mem_range, digit]

/-- The printer is faithful when it ends and agrees on every bucket. -/
theorem printsFaithfully_iff :
    s.PrintsFaithfully ↔ s.n < 2 ^ 32 ∧ s.NoTraps ∧
      ∀ i < s.numBuckets, ∀ j < s.numGuesses,
        (s.bucketAt i j).isGood B s.n s.largePrime (s.batchSeed i j)
            (genR (s.batchSeed i j) s.largePrime) (B.guessNonzero j) = s.goodAt i j ∧
          ∀ k < s.n, contains B k (s.batchSeed i j) (B.guessNonzero j) = s.member i j k := by
  have stored : ∀ i < s.numBuckets, ∀ j < s.numGuesses,
      (((List.range s.numBuckets).map fun i => (List.range s.numGuesses).map fun j =>
        s.printedBucket i j)[i]?.bind (·[j]?)) = some (s.printedBucket i j) := by
    intro i hi j hj
    simp [hi, hj]
  constructor
  · rintro ⟨printed, shown, agrees⟩
    obtain ⟨short, quiet⟩ := s.short_of_print (by rw [shown]; exact Option.some_ne_none _)
    rw [s.print_some short quiet] at shown
    cases Option.some.inj shown
    refine ⟨short, quiet, fun i hi j hj => ?_⟩
    obtain ⟨bucket, found, verdict, row⟩ := agrees i hi j hj
    rw [stored i hi j hj] at found
    cases Option.some.inj found
    exact ⟨(s.printedBucket_verdict_iff (quiet i hi j hj)).mp verdict,
      (s.printedBucket_row_iff i j).mp row⟩
  · rintro ⟨short, quiet, agrees⟩
    refine ⟨_, s.print_some short quiet, fun i hi j hj => ⟨_, stored i hi j hj, ?_, ?_⟩⟩
    · exact (s.printedBucket_verdict_iff (quiet i hi j hj)).mpr (agrees i hi j hj).1
    · exact (s.printedBucket_row_iff i j).mpr (agrees i hi j hj).2

end Printed

section Agreement

variable {n p r r' guess : Nat} {bucketSeed bucketSeed' : UInt64}

/-- `is_good` depends on the seed and the base only through the indices the
bucket contains and their powers. -/
theorem isGood_congr (hn : n < 2 ^ B.types.vecBits) (bucket : BucketBoruvka)
    (same : ∀ k < n, contains B k bucketSeed guess = contains B k bucketSeed' guess ∧
      (contains B k bucketSeed' guess = true →
        powermod B.types r (k + 1) p = powermod B.types r' (k + 1) p)) :
    isGood B bucket n p bucketSeed r guess = isGood B bucket n p bucketSeed' r' guess := by
  have wider : 2 ^ B.types.vecBits ≤ 2 ^ B.types.bucketBits :=
    Nat.pow_le_pow_right (by decide) (by rw [Config.bucketBits_eq]; omega)
  simp only [isGood]
  congr 2
  generalize bucket.b.tdiv bucket.a = quotient
  by_cases inside : 0 < quotient ∧ quotient ≤ n
  · obtain ⟨k, rfl⟩ : ∃ k : Nat, quotient = (k : Int) + 1 := ⟨(quotient - 1).toNat, by omega⟩
    have index : B.types.vec ((k : Int) + 1 - 1) = k := by
      rw [add_sub_cancel_right, Config.vec_eq_self (by omega)]
    have exponent : B.types.ubucket ((k : Int) + 1) = k + 1 :=
      Config.ubucket_eq_self (x := k + 1) (by omega)
    obtain ⟨sampled, power⟩ := same k (by omega)
    rw [index, exponent, sampled]
    cases kept : contains B k bucketSeed' guess with
    | true => rw [power kept]
    | false => simp only [Bool.and_false, Bool.false_and]
  · have outside : (decide (0 < quotient) && decide (quotient ≤ (n : Int))) = false := by
      simpa using inside
    simp only [Bool.and_assoc]
    rw [← Bool.and_assoc (decide (0 < quotient)), ← Bool.and_assoc (decide (0 < quotient)), outside]
    simp only [Bool.false_and, Bool.and_false]

/-- A bucket with one unit update of index `k` is good under some seed and base
exactly when `k` is sampled under the seed and its power is the stored one. -/
theorem unit_isGood_iff (s : AGMSketch B) {k : Nat} (hk : k < s.n)
    (hr' : r' < 2 ^ B.types.bucketBits) :
    isGood B (BucketBoruvka.update B.types {} ⟨k, 1⟩ s.largePrime r) s.n s.largePrime bucketSeed r'
        guess = some true ↔
      contains B k bucketSeed guess = true ∧
        powermod B.types r' (k + 1) s.largePrime = powermod B.types r (k + 1) s.largePrime := by
  have large := s.two_le_largePrime
  have below := s.largePrime_lt
  have length := s.n_lt
  have total := s.unit_update_a k r
  have stored := s.unit_update_c hk r
  have position := s.unit_update_b hk r
  have reduced := powermod_lt (T := B.types) r (k + 1) large below
  rw [isGood_iff length large below hr' (by omega) (by rw [total]; decide), total, position, stored]
  have congruent : ((powermod B.types r (k + 1) s.largePrime : Int) ≡
      1 * (r' : Int) ^ (k + 1) [ZMOD s.largePrime]) ↔
        powermod B.types r' (k + 1) s.largePrime = powermod B.types r (k + 1) s.largePrime := by
    rw [one_mul, powermod_eq large below hr', ← Nat.cast_pow, Int.natCast_modEq_iff, Nat.ModEq,
      Nat.mod_eq_of_lt reduced, eq_comm]
  constructor
  · rintro ⟨-, t, -, -, multiple, sampled, power⟩
    obtain rfl : t = k + 1 := by omega
    exact ⟨sampled, congruent.mp power⟩
  · rintro ⟨sampled, power⟩
    exact ⟨by decide, k + 1, by omega, by omega, by omega, sampled, congruent.mpr power⟩

end Agreement

section Runs

variable {n : Nat} {hn : n < 2 ^ B.types.vecBits} {seed : Int64}

/-- Updates change neither the seeds nor the bases. -/
theorem updateAll_seeds (s : AGMSketch B) (updates : List Update) (i j : Nat) :
    (s.updateAll updates).batchSeed i j = s.batchSeed i j ∧
      (s.updateAll updates).columnR i = s.columnR i ∧
      ∀ k, (s.updateAll updates).member i j k = s.member i j k := by
  obtain ⟨length, same, prime, -⟩ := s.updateAll_frame updates
  refine ⟨?_, ?_, fun k => ?_⟩
  · rw [batchSeed, batchSeed, numGuesses, numGuesses, length, same]
  · rw [columnR, columnR, same, prime]
  · rw [member, member, same]

/-- One unit update leaves no bucket that traps. -/
theorem noTraps_unit (k : Nat) : ((new B n seed hn).updateAll [⟨k, 1⟩]).NoTraps := by
  intro i hi j hj trap
  have cell := (new B n seed hn).update_bucketAt ⟨k, 1⟩ hi hj
  rw [new_bucketAt] at cell
  change (((new B n seed hn).update ⟨k, 1⟩).bucketAt i j).Traps B.types at trap
  rw [cell] at trap
  have total := trap.1
  split at total
  · rw [unit_update_a] at total
    contradiction
  · contradiction

/-- The printer is faithful on exactly those of the sketches reached by updates
that hold no bucket on which `is_good` traps, when its rows end and the position
seed and the column seed of every bucket agree; otherwise it is not even that. -/
theorem printsFaithfully_updateAll_iff (B : Build) {n : Nat} (hn : n < 2 ^ B.types.vecBits)
    (hn2 : 2 ≤ n) (seed : Int64) :
    (∀ updates : List Update, (∀ u ∈ updates, u.index < n) →
        (((new B n seed hn).updateAll updates).PrintsFaithfully ↔
          ((new B n seed hn).updateAll updates).NoTraps)) ↔
      n < 2 ^ 32 ∧ ∀ i < B.bucketGen n, ∀ j < B.guessGen n, ∀ k < n,
        (new B n seed hn).SeedsAgree i j k := by
  constructor
  · intro faithful
    have single := fun k (hk : k < n) => (printsFaithfully_iff _).mp
      ((faithful [⟨k, 1⟩] (by simpa using hk)).mpr (noTraps_unit k))
    refine ⟨(single 0 (by omega)).1, fun i hi j hj k hk => ?_⟩
    obtain ⟨-, -, agrees⟩ := single k hk
    obtain ⟨verdict, row⟩ := agrees i hi j hj
    obtain ⟨seeds, -, members⟩ := (new B n seed hn).updateAll_seeds [⟨k, 1⟩] i j
    have sampled := row k hk
    rw [seeds, members] at sampled
    refine ⟨sampled, fun kept => ?_⟩
    have cell := (new B n seed hn).update_bucketAt ⟨k, 1⟩ hi hj
    rw [if_pos kept, new_bucketAt] at cell
    have own : ((new B n seed hn).updateAll [⟨k, 1⟩]).goodAt i j = some true := by
      change isGood B (((new B n seed hn).update ⟨k, 1⟩).bucketAt i j) _ _ _ _ _ = some true
      rw [cell]
      exact (unit_isGood_iff (new B n seed hn) hk (columnR_lt _ i hn2)).mpr ⟨kept, rfl⟩
    rw [own, seeds] at verdict
    change isGood B (((new B n seed hn).update ⟨k, 1⟩).bucketAt i j) _ _ _ _ _ = some true at verdict
    rw [cell] at verdict
    exact ((unit_isGood_iff (new B n seed hn) hk (genR_lt _ _ hn2)).mp verdict).2
  · rintro ⟨short, agree⟩ updates -
    obtain ⟨length, same, prime, -⟩ := (new B n seed hn).updateAll_frame updates
    refine ⟨fun faithful => ((printsFaithfully_iff _).mp faithful).2.1, fun quiet => ?_⟩
    apply (printsFaithfully_iff _).mpr
    refine ⟨length.trans_lt short, quiet, fun i hi j hj => ?_⟩
    rw [numBuckets, length] at hi
    rw [numGuesses, length] at hj
    obtain ⟨seeds, bases, members⟩ := (new B n seed hn).updateAll_seeds updates i j
    constructor
    · rw [goodAt, seeds, length, prime, same]
      exact isGood_congr hn _ fun k hk => agree i hi j hj k hk
    · intro k hk
      rw [seeds, members]
      exact (agree i hi j hj k (hk.trans_eq length)).1

/-- A constant hash makes the printer faithful. -/
theorem printsFaithfully_constant :
    let B : Build := { Build.sample .native with XXH64 := fun _ _ => 4 }
    ((new B 2 0 (by decide)).updateAll [⟨0, 1⟩, ⟨1, -3⟩]).PrintsFaithfully := by
  intro B
  have columns : B.bucketGen 2 = 2 := by decide
  have levels : B.guessGen 2 = 3 := by decide
  refine ((printsFaithfully_updateAll_iff B (n := 2) (by decide) (by decide) 0).mpr
    ⟨by decide, ?_⟩ _ (by simp)).mpr ?_
  · rw [columns, levels]
    decide +kernel
  · change ∀ i < B.bucketGen 2, ∀ j < B.guessGen 2, _
    rw [columns, levels]
    decide +kernel

/-- Bucket `(0, 1)` of the empty sketch is printed with index 0, which `update`
does not put into it. -/
theorem printsFaithfully_sample :
    ¬((new (Build.sample .native) 2 0 (by decide)).updateAll []).PrintsFaithfully := by
  intro faithful
  obtain ⟨-, -, agrees⟩ := (printsFaithfully_iff _).mp faithful
  have row := (agrees 0 (by decide) 1 (by decide)).2 0 (by decide)
  exact absurd row (by decide +kernel)

end Runs

end AGMSketch
end Zeppelin.Sketch
