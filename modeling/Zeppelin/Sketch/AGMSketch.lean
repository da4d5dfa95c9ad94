import Zeppelin.Sketch.Bucket
import Zeppelin.Sketch.PrimeSearch
import Zeppelin.Machine.Sweep

/-! `agm_sketch.h` and `agm_sketch.cpp`: the sketch, its constructor, `update`,
`batch_update`, `query` and the operators `+`, `+=` and `*`. A sketch carries
what its constructor fixes: the prime is the one the search returned for `n * n`
and there is one bucket per column and level, stored column by column. -/
namespace Zeppelin.Sketch

open PrimeGenerator BucketBoruvka

structure AGMSketch (B : Build) where
  seed : Int64
  n : Nat
  buckets : List BucketBoruvka
  largePrime : Nat
  alreadyQuered : Bool
  n_lt : n < 2 ^ B.types.vecBits
  largePrime_eq : generatePrime B.types (n * n) = some largePrime
  buckets_length : buckets.length = B.bucketGen n * B.guessGen n

inductive QueryError where
  | allBucketsZero
  | multipleQuery
  | noGoodBucket
  deriving DecidableEq

/-- The bucket sum of `operator+` and `operator+=`: the fingerprints are added in
`ubucket_t` and then reduced. -/
def mergeBucket (T : Config) (largePrime : Nat) (x y : BucketBoruvka) : BucketBoruvka where
  a := T.bucket (x.a + y.a)
  b := T.bucket (x.b + y.b)
  c := T.ubucket ((x.c : Int) + y.c) % largePrime

/-- The bucket of `operator*`: the `long` factor is converted to `ubucket_t`
before it multiplies the fingerprint. -/
def scaleBucket (T : Config) (largePrime : Nat) (scalingFactor : Int64) (x : BucketBoruvka) :
    BucketBoruvka where
  a := T.bucket (x.a * scalingFactor.toInt)
  b := T.bucket (x.b * scalingFactor.toInt)
  c := T.ubucket ((x.c : Int) * T.ubucket scalingFactor.toInt) % largePrime

namespace AGMSketch

variable {B : Build}

theorem generatePrime_isSome {n : Nat} (hn : n < 2 ^ B.types.vecBits) :
    (generatePrime B.types (n * n)).isSome := by
  obtain ⟨q, found, -⟩ := generatePrime_square hn
  rw [found]
  rfl

/-- The constructor. Its prime search always returns, so it is total. -/
def new (B : Build) (n : Nat) (seed : Int64) (hn : n < 2 ^ B.types.vecBits) : AGMSketch B where
  seed := seed
  n := n
  buckets := List.replicate (B.bucketGen n * B.guessGen n) {}
  largePrime := (generatePrime B.types (n * n)).get (generatePrime_isSome hn)
  alreadyQuered := false
  n_lt := hn
  largePrime_eq := (Option.some_get _).symm
  buckets_length := List.length_replicate

def numBuckets (s : AGMSketch B) : Nat := B.bucketGen s.n
def numGuesses (s : AGMSketch B) : Nat := B.guessGen s.n

/-- One column of `update` computes its seed and `r` once. -/
def update (s : AGMSketch B) (u : Update) : AGMSketch B :=
  { s with
    buckets := Sweep.grid
      (fun i =>
        let bucketSeed := genBucketSeed B i s.seed
        let r := genR bucketSeed s.largePrime
        fun j bucket =>
          if contains B u.index bucketSeed (B.guessNonzero j) then
            bucket.update B.types u s.largePrime r
          else bucket)
      s.numBuckets s.numGuesses s.buckets
    buckets_length := (Sweep.grid_length _ _ _ _).trans s.buckets_length }

def updateAll (s : AGMSketch B) (updates : List Update) : AGMSketch B := updates.foldl update s

/-- The buckets left by `batch_update`, which takes the seed and `r` of a bucket
from its position. -/
def batchBuckets (s : AGMSketch B) (updates : List Update) : Option (List BucketBoruvka) :=
  Sweep.grid?
    (fun i j bucket =>
      let bucketId := i * s.numGuesses + j
      let bucketSeed := genBucketSeed B bucketId s.seed
      let r := genR bucketSeed s.largePrime
      let rSqCache := genSqCache B.types r s.n s.largePrime
      updates.foldlM
        (fun bucket u =>
          if contains B u.index bucketSeed (B.guessNonzero j) then
            bucket.cachedUpdate B.types u s.largePrime rSqCache
          else some bucket)
        bucket)
    s.numBuckets s.numGuesses s.buckets

def batchUpdate (s : AGMSketch B) (updates : List Update) : Option (AGMSketch B) :=
  match h : s.batchBuckets updates with
  | none => none
  | some buckets =>
    some { s with
      buckets := buckets
      buckets_length := (Sweep.grid?_length h).trans s.buckets_length }

def bucketAt (s : AGMSketch B) (i j : Nat) : BucketBoruvka :=
  s.buckets.getD (i * s.numGuesses + j) {}

/-- The cells in the order of the two loops of `query`. -/
def cells (rows cols : Nat) : List (Nat × Nat) :=
  (List.range rows).flatMap fun i => (List.range cols).map fun j => (i, j)

theorem mem_cells {rows cols i j : Nat} : (i, j) ∈ cells rows cols ↔ i < rows ∧ j < cols := by
  simp only [cells, List.mem_flatMap, List.mem_range, List.mem_map, Prod.mk.injEq]
  constructor
  · rintro ⟨i', hi, j', hj, rfl, rfl⟩
    exact ⟨hi, hj⟩
  · rintro ⟨hi, hj⟩
    exact ⟨i, hi, j, hj, rfl, rfl⟩

/-- The test of `query` on bucket `(i, j)`; `none` when it traps. -/
def goodAt (s : AGMSketch B) (i j : Nat) : Option Bool :=
  let bucketSeed := genBucketSeed B i s.seed
  let r := genR bucketSeed s.largePrime
  (s.bucketAt i j).isGood B s.n s.largePrime bucketSeed r (B.guessNonzero j)

/-- What `query` returns for a good bucket. -/
def decodeAt (s : AGMSketch B) (i j : Nat) : Update where
  index := (s.bucketAt i j).decodedIndex B.types
  delta := Int64.ofInt (s.bucketAt i j).a

/-- The loops of `query`, left at the first good bucket; `none` is a test that
traps. -/
def querySearch (s : AGMSketch B) :
    List (Nat × Nat) → Bool → Option (Except QueryError Update)
  | [], allBucketsZero => some (.error (if allBucketsZero then .allBucketsZero else .noGoodBucket))
  | (i, j) :: rest, allBucketsZero =>
    let bucket := s.bucketAt i j
    let allBucketsZero :=
      if bucket.a ≠ 0 ∨ bucket.b ≠ 0 ∨ bucket.c ≠ 0 then false else allBucketsZero
    match s.goodAt i j with
    | none => none
    | some true => some (.ok (s.decodeAt i j))
    | some false => querySearch s rest allBucketsZero

/-- A query marks the sketch before it searches, whether it returns or throws. -/
def query (s : AGMSketch B) : Option (AGMSketch B × Except QueryError Update) :=
  if s.alreadyQuered then some (s, .error .multipleQuery)
  else
    (s.querySearch (cells s.numBuckets s.numGuesses) true).map
      fun outcome => ({ s with alreadyQuered := true }, outcome)

/-- What a query returns or throws. -/
def queryOutcome (s : AGMSketch B) : Option (Except QueryError Update) := s.query.map Prod.snd

/-- No bucket traps `is_good`. -/
def NoTraps (s : AGMSketch B) : Prop :=
  ∀ i < s.numBuckets, ∀ j < s.numGuesses, ¬(s.bucketAt i j).Traps B.types

instance (s : AGMSketch B) : Decidable s.NoTraps :=
  inferInstanceAs (Decidable (∀ i < s.numBuckets, ∀ j < s.numGuesses, _))

/-- The assertions of `operator+` and `operator+=`. -/
def Compatible (s t : AGMSketch B) : Prop :=
  s.n = t.n ∧ s.seed = t.seed ∧ s.largePrime = t.largePrime

instance (s t : AGMSketch B) : Decidable (s.Compatible t) := inferInstanceAs (Decidable (_ ∧ _))

theorem Compatible.length {s t : AGMSketch B} (h : s.Compatible t) :
    t.buckets.length = s.buckets.length := by
  rw [s.buckets_length, t.buckets_length, h.1]

/-- `operator+` builds a new sketch; `none` is a failed assertion. -/
def add (s t : AGMSketch B) : Option (AGMSketch B) :=
  if h : s.Compatible t then
    let result := new B s.n s.seed s.n_lt
    some { result with
      buckets := List.zipWith (mergeBucket B.types result.largePrime) s.buckets t.buckets
      buckets_length := by rw [List.length_zipWith, h.length, min_self]; exact s.buckets_length }
  else none

/-- `operator+=` changes the left sketch and keeps the query mark of either. -/
def addAssign (s t : AGMSketch B) : Option (AGMSketch B) :=
  if h : s.Compatible t then
    some { s with
      buckets := List.zipWith (mergeBucket B.types s.largePrime) s.buckets t.buckets
      alreadyQuered := s.alreadyQuered || t.alreadyQuered
      buckets_length := by rw [List.length_zipWith, h.length, min_self]; exact s.buckets_length }
  else none

def scale (s : AGMSketch B) (scalingFactor : Int64) : AGMSketch B :=
  let result := new B s.n s.seed s.n_lt
  { result with
    buckets := s.buckets.map (scaleBucket B.types result.largePrime scalingFactor)
    buckets_length := by rw [List.length_map]; exact s.buckets_length }

section Constants

variable (s : AGMSketch B)

/-- The base of column `i`, as `update` and `query` compute it. -/
def columnR (i : Nat) : Nat := genR (genBucketSeed B i s.seed) s.largePrime

/-- Bucket `(i, j)` contains index `k`, as `update` and `query` decide it. -/
def member (i j k : Nat) : Bool :=
  contains B k (genBucketSeed B i s.seed) (B.guessNonzero j)

/-- Level 0 contains every index. -/
theorem member_zero (i k : Nat) : s.member i 0 k = true := by
  rw [member, B.guessNonzero_zero]
  exact contains_one B k _

/-- The updates that bucket `(i, j)` accumulates. -/
def accepted (i j : Nat) (updates : List Update) : List Update :=
  updates.filter fun u => s.member i j u.index

theorem largePrime_spec : s.n * s.n ≤ s.largePrime ∧ s.largePrime < 2 ^ B.types.bucketBits ∧
    s.largePrime % 2 = 1 ∧ isPrime B.types s.largePrime = true := by
  obtain ⟨q, found, low, high, odd, good, -⟩ := generatePrime_square s.n_lt
  rw [s.largePrime_eq] at found
  cases Option.some.inj found
  exact ⟨low, high, odd, good⟩

theorem largePrime_lt : s.largePrime < 2 ^ B.types.bucketBits := s.largePrime_spec.2.1

theorem two_le_largePrime : 2 ≤ s.largePrime := two_le_of_isPrime s.largePrime_spec.2.2.2

theorem five_le_largePrime (hn : 2 ≤ s.n) : 5 ≤ s.largePrime := by
  obtain ⟨low, -, odd, -⟩ := s.largePrime_spec
  have square : 2 * 2 ≤ s.n * s.n := Nat.mul_le_mul hn hn
  omega

/-- For a vector of length at least 2 the base lies in `[2, large_prime - 2]`. -/
theorem genR_range (bucketSeed : UInt64) (hn : 2 ≤ s.n) :
    2 ≤ genR bucketSeed s.largePrime ∧ genR bucketSeed s.largePrime ≤ s.largePrime - 2 := by
  have large := s.five_le_largePrime hn
  have below := Nat.mod_lt bucketSeed.toNat (show 0 < s.largePrime - 3 by omega)
  rw [genR]
  omega

theorem genR_lt (bucketSeed : UInt64) (hn : 2 ≤ s.n) :
    genR bucketSeed s.largePrime < 2 ^ B.types.bucketBits := by
  have range := s.genR_range bucketSeed hn
  have large := s.largePrime_lt
  omega

theorem columnR_lt (i : Nat) (hn : 2 ≤ s.n) : s.columnR i < 2 ^ B.types.bucketBits :=
  s.genR_lt _ hn

/-- The constructor's prime depends on the length only. -/
theorem largePrime_unique {s t : AGMSketch B} (same : s.n = t.n) : s.largePrime = t.largePrime := by
  apply Option.some.inj
  rw [← s.largePrime_eq, ← t.largePrime_eq, same]

theorem compatible_of_eq {s t : AGMSketch B} (length : s.n = t.n) (seed : s.seed = t.seed) :
    s.Compatible t := ⟨length, seed, largePrime_unique length⟩

theorem ext_buckets {s t : AGMSketch B} (seed : s.seed = t.seed) (length : s.n = t.n)
    (mark : s.alreadyQuered = t.alreadyQuered) (buckets : s.buckets = t.buckets) : s = t := by
  have prime := largePrime_unique length
  cases s
  cases t
  subst seed length mark buckets prime
  rfl

end Constants

section Cells

variable (s : AGMSketch B)

theorem bucketAt_get {i j : Nat} (hi : i < s.numBuckets) (hj : j < s.numGuesses) :
    s.buckets[i * s.numGuesses + j]? = some (s.bucketAt i j) := by
  have within : i * s.numGuesses + j < s.buckets.length := by
    rw [s.buckets_length]
    exact Nat.lt_of_lt_of_le (Nat.add_lt_add_left hj _)
      ((Nat.succ_mul i s.numGuesses).symm.trans_le (Nat.mul_le_mul_right _ hi))
  rw [bucketAt, List.getD_eq_getElem?_getD, List.getElem?_eq_getElem within, Option.getD_some]

/-- Every stored position is a cell. -/
theorem position_cell {k : Nat} (within : k < s.buckets.length) :
    ∃ i < s.numBuckets, ∃ j < s.numGuesses, k = i * s.numGuesses + j := by
  have positive : 0 < s.numGuesses := B.guessGen_pos s.n
  rw [s.buckets_length] at within
  refine ⟨k / s.numGuesses, Nat.div_lt_of_lt_mul (by rwa [mul_comm]), k % s.numGuesses,
    Nat.mod_lt _ positive, (Nat.div_add_mod' _ _).symm⟩

theorem forall_mem_buckets {P : BucketBoruvka → Prop} :
    (∀ b ∈ s.buckets, P b) ↔ ∀ i < s.numBuckets, ∀ j < s.numGuesses, P (s.bucketAt i j) := by
  constructor
  · intro all i hi j hj
    exact all _ (List.mem_of_getElem? (s.bucketAt_get hi hj))
  · intro cell b member
    obtain ⟨k, within, rfl⟩ := List.mem_iff_getElem.mp member
    obtain ⟨i, hi, j, hj, rfl⟩ := s.position_cell within
    have stored := s.bucketAt_get hi hj
    rw [List.getElem?_eq_getElem within] at stored
    exact Option.some.inj stored ▸ cell i hi j hj

/-- Sketches of one length have equal buckets when they agree cell by cell. -/
theorem buckets_ext_iff {s t : AGMSketch B} (length : s.n = t.n) : s.buckets = t.buckets ↔
    ∀ i < s.numBuckets, ∀ j < s.numGuesses, s.bucketAt i j = t.bucketAt i j := by
  have guesses : s.numGuesses = t.numGuesses := congrArg B.guessGen length
  have columns : s.numBuckets = t.numBuckets := congrArg B.bucketGen length
  have sizes : s.buckets.length = t.buckets.length := by
    rw [s.buckets_length, t.buckets_length, length]
  constructor
  · intro same i _ j _
    rw [bucketAt, bucketAt, same, guesses]
  · intro cell
    apply List.ext_getElem?
    intro k
    by_cases within : k < s.buckets.length
    · obtain ⟨i, hi, j, hj, rfl⟩ := s.position_cell within
      rw [s.bucketAt_get hi hj, guesses, t.bucketAt_get (columns ▸ hi) (guesses ▸ hj), cell i hi j hj]
    · rw [List.getElem?_eq_none (by omega), List.getElem?_eq_none (by omega)]

theorem buckets_ext {s t : AGMSketch B} (length : s.n = t.n)
    (cell : ∀ i < s.numBuckets, ∀ j < s.numGuesses, s.bucketAt i j = t.bucketAt i j) :
    s.buckets = t.buckets := (buckets_ext_iff length).mpr cell

theorem update_largePrime (u : Update) : (s.update u).largePrime = s.largePrime := rfl

theorem update_bucketAt (u : Update) {i j : Nat} (hi : i < s.numBuckets) (hj : j < s.numGuesses) :
    (s.update u).bucketAt i j =
      if s.member i j u.index then (s.bucketAt i j).update B.types u s.largePrime (s.columnR i)
      else s.bucketAt i j := by
  exact Sweep.grid_getD _ s.buckets_length hi hj {}

theorem updateAll_cons (u : Update) (rest : List Update) :
    s.updateAll (u :: rest) = (s.update u).updateAll rest := rfl

/-- Updates change buckets only. -/
theorem updateAll_frame (updates : List Update) :
    (s.updateAll updates).n = s.n ∧ (s.updateAll updates).seed = s.seed ∧
      (s.updateAll updates).largePrime = s.largePrime ∧
      (s.updateAll updates).alreadyQuered = s.alreadyQuered := by
  induction updates generalizing s with
  | nil => exact ⟨rfl, rfl, rfl, rfl⟩
  | cons u rest ih => exact ih (s.update u)

/-- So does a batch that reads inside its caches. -/
theorem batchUpdate_frame {t : AGMSketch B} {updates : List Update}
    (done : s.batchUpdate updates = some t) : t.n = s.n ∧ t.seed = s.seed ∧
      t.alreadyQuered = s.alreadyQuered ∧ s.batchBuckets updates = some t.buckets := by
  simp only [batchUpdate] at done
  split at done
  · contradiction
  · rename_i buckets filled
    cases Option.some.inj done
    exact ⟨rfl, rfl, rfl, filled⟩

/-- A query changes the mark only. -/
theorem query_frame {t : AGMSketch B} {outcome : Except QueryError Update}
    (done : s.query = some (t, outcome)) :
    t.n = s.n ∧ t.seed = s.seed ∧ t.alreadyQuered = true ∧ t.buckets = s.buckets := by
  rw [query] at done
  split at done
  · rename_i marked
    cases done
    exact ⟨rfl, rfl, marked, rfl⟩
  · obtain ⟨_, -, same⟩ := Option.map_eq_some_iff.mp done
    cases same
    exact ⟨rfl, rfl, rfl, rfl⟩

/-- A run of updates fills every bucket with exactly the updates it contains. -/
theorem updateAll_bucketAt (updates : List Update) {i j : Nat} (hi : i < s.numBuckets)
    (hj : j < s.numGuesses) :
    (s.updateAll updates).bucketAt i j =
      (s.accepted i j updates).foldl
        (fun bucket u => bucket.update B.types u s.largePrime (s.columnR i)) (s.bucketAt i j) := by
  induction updates generalizing s with
  | nil => rfl
  | cons u rest ih =>
    rw [updateAll_cons, ih (s.update u) hi hj, update_bucketAt s u hi hj]
    have column : (s.update u).columnR i = s.columnR i := rfl
    have same : (s.update u).accepted i j rest = s.accepted i j rest := rfl
    rw [column, same, update_largePrime]
    by_cases kept : s.member i j u.index = true
    · have taken : s.accepted i j (u :: rest) = u :: s.accepted i j rest := List.filter_cons_of_pos kept
      rw [if_pos kept, taken, List.foldl_cons]
    · have dropped : s.accepted i j (u :: rest) = s.accepted i j rest := List.filter_cons_of_neg kept
      rw [if_neg kept, dropped]

theorem new_bucketAt (n : Nat) (seed : Int64) (hn : n < 2 ^ B.types.vecBits) (i j : Nat) :
    (new B n seed hn).bucketAt i j = {} := by
  rw [bucketAt, List.getD_eq_getElem?_getD]
  simp only [new, List.getElem?_replicate]
  split <;> rfl

/-- Buckets of a fresh sketch after a run of updates are filled by the updates
they contain. -/
theorem new_updateAll_fill {n : Nat} (seed : Int64) (hn : n < 2 ^ B.types.vecBits)
    (updates : List Update) {i j : Nat} (hi : i < B.bucketGen n) (hj : j < B.guessGen n) :
    ((new B n seed hn).updateAll updates).bucketAt i j =
      fill B.types (new B n seed hn).largePrime ((new B n seed hn).columnR i)
        ((new B n seed hn).accepted i j updates) := by
  rw [updateAll_bucketAt _ updates hi hj, new_bucketAt, fill]

/-- They are the measurements of these updates when no index is too large. -/
theorem new_updateAll_bucketAt {n : Nat} (seed : Int64) (hn : n < 2 ^ B.types.vecBits)
    (hn2 : 2 ≤ n) {updates : List Update} (indices : ∀ u ∈ updates, u.index < n) {i j : Nat}
    (hi : i < B.bucketGen n) (hj : j < B.guessGen n) :
    ((new B n seed hn).updateAll updates).bucketAt i j =
      ofHistory B.types (new B n seed hn).largePrime ((new B n seed hn).columnR i)
        (history ((new B n seed hn).accepted i j updates)) := by
  have fresh := (new B n seed hn).genR_lt (genBucketSeed B i seed) hn2
  rw [new_updateAll_fill seed hn updates hi hj]
  apply fill_eq_ofHistory (two_le_largePrime _) (largePrime_lt _) fresh
  intro u member
  have := indices u (List.mem_filter.mp member).1
  omega

end Cells

end AGMSketch
end Zeppelin.Sketch
