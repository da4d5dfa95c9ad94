import Zeppelin.Sketch.AGMSketch

/-! `batch_update` against a sequence of `update` calls. The cached
exponentiation is the plain one, but `batch_update` seeds bucket `(i, j)` with its
position `i * num_guesses + j` where `update` and `query` seed it with its column
`i`. The two agree exactly when the two seeds sample the same indices at every
level and give the same powers of the base. -/
namespace Zeppelin.Sketch

open PrimeGenerator BucketBoruvka

namespace AGMSketch

variable {B : Build} (s : AGMSketch B)

/-- The seed that `batch_update` gives to bucket `(i, j)`. -/
def batchSeed (i j : Nat) : UInt64 := genBucketSeed B (i * s.numGuesses + j) s.seed

/-- One update of one bucket with the seed of `batch_update`. -/
def batchCell (u : Update) (i j : Nat) (bucket : BucketBoruvka) : BucketBoruvka :=
  if contains B u.index (s.batchSeed i j) (B.guessNonzero j) then
    bucket.update B.types u s.largePrime (genR (s.batchSeed i j) s.largePrime)
  else bucket

/-- One update of one bucket with the seed of `update`. -/
def updateCell (u : Update) (i j : Nat) (bucket : BucketBoruvka) : BucketBoruvka :=
  if s.member i j u.index then bucket.update B.types u s.largePrime (s.columnR i) else bucket

/-- No cache read of `batch_update` fails. -/
theorem batchBuckets_eq {updates : List Update} (indices : ∀ u ∈ updates, u.index < s.n) :
    s.batchBuckets updates = some (Sweep.grid
      (fun i j bucket => updates.foldl (fun bucket u => s.batchCell u i j bucket) bucket)
      s.numBuckets s.numGuesses s.buckets) := by
  apply Sweep.grid?_some (le_of_eq s.buckets_length.symm)
  intro i _ j _ bucket
  apply Sweep.foldlM_eq_some
  intro u member b
  by_cases kept : contains B u.index (s.batchSeed i j) (B.guessNonzero j) = true
  · rw [batchCell, if_pos kept]
    exact (if_pos kept).trans (cachedUpdate_eq (indices u member) b _ _)
  · rw [batchCell, if_neg kept]
    exact if_neg kept

/-- A batch succeeds, keeps everything but the buckets, and sweeps each bucket
over the whole list. -/
theorem batchUpdate_spec {updates : List Update} (indices : ∀ u ∈ updates, u.index < s.n) :
    ∃ t, s.batchUpdate updates = some t ∧ t.n = s.n ∧ t.seed = s.seed ∧
      t.alreadyQuered = s.alreadyQuered ∧
      ∀ i < s.numBuckets, ∀ j < s.numGuesses, t.bucketAt i j =
        updates.foldl (fun bucket u => s.batchCell u i j bucket) (s.bucketAt i j) := by
  have done := s.batchBuckets_eq indices
  rw [batchUpdate]
  split
  · rename_i failed
    rw [done] at failed
    contradiction
  · rename_i buckets found
    rw [done] at found
    cases Option.some.inj found
    refine ⟨_, rfl, rfl, rfl, rfl, ?_⟩
    intro i hi j hj
    exact Sweep.grid_getD _ s.buckets_length hi hj {}

theorem updateAll_bucketAt_cell (updates : List Update) {i j : Nat} (hi : i < s.numBuckets)
    (hj : j < s.numGuesses) :
    (s.updateAll updates).bucketAt i j =
      updates.foldl (fun bucket u => s.updateCell u i j bucket) (s.bucketAt i j) := by
  rw [updateAll_bucketAt s updates hi hj, accepted, List.foldl_filter]
  rfl

/-- The two seeds of bucket `(i, j)` agree on index `k`: it is sampled under both
or under neither, and if it is, both bases give the same power. -/
def SeedsAgree (i j k : Nat) : Prop :=
  contains B k (s.batchSeed i j) (B.guessNonzero j) = s.member i j k ∧
    (s.member i j k = true →
      powermod B.types (genR (s.batchSeed i j) s.largePrime) (k + 1) s.largePrime =
        powermod B.types (s.columnR i) (k + 1) s.largePrime)

instance (i j k : Nat) : Decidable (s.SeedsAgree i j k) := inferInstanceAs (Decidable (_ ∧ _))

theorem cells_eq {u : Update} (hu : u.index < s.n) {i j : Nat} (agree : s.SeedsAgree i j u.index)
    (bucket : BucketBoruvka) : s.batchCell u i j bucket = s.updateCell u i j bucket := by
  have next : B.types.vec ((u.index : Int) + 1) = u.index + 1 :=
    Config.vec_eq_self (x := u.index + 1) (by have := s.n_lt; omega)
  obtain ⟨same, power⟩ := agree
  rw [batchCell, updateCell, same]
  by_cases kept : s.member i j u.index = true
  · rw [if_pos kept, if_pos kept, BucketBoruvka.update, BucketBoruvka.update, next, power kept]
  · rw [if_neg kept, if_neg kept]

theorem batchUpdate_of_agree {updates : List Update} (indices : ∀ u ∈ updates, u.index < s.n)
    (agree : ∀ i < s.numBuckets, ∀ j < s.numGuesses, ∀ u ∈ updates, s.SeedsAgree i j u.index) :
    s.batchUpdate updates = some (s.updateAll updates) := by
  obtain ⟨t, done, length, seed, mark, cell⟩ := s.batchUpdate_spec indices
  obtain ⟨length', seed', -, mark'⟩ := s.updateAll_frame updates
  rw [done]
  apply congrArg some
  apply ext_buckets (seed.trans seed'.symm) (length.trans length'.symm) (mark.trans mark'.symm)
  apply buckets_ext (length.trans length'.symm)
  intro i hi j hj
  rw [numBuckets, length] at hi
  rw [numGuesses, length] at hj
  rw [cell i hi j hj, updateAll_bucketAt_cell s updates hi hj]
  apply List.foldl_ext
  intro bucket u member
  exact s.cells_eq (indices u member) (agree i hi j hj u member) bucket

/-- A unit update of an empty bucket leaves the total 1. -/
theorem unit_update_a (k r : Nat) :
    (BucketBoruvka.update B.types {} ⟨k, 1⟩ s.largePrime r).a = 1 := by
  change B.types.bucket (0 + 1) = 1
  cases B.types <;> decide

/-- A unit update of an empty bucket leaves the one-based index as the position. -/
theorem unit_update_b {k : Nat} (hk : k < s.n) (r : Nat) :
    (BucketBoruvka.update B.types {} ⟨k, 1⟩ s.largePrime r).b = (k + 1 : Nat) := by
  have next : B.types.vec ((k : Int) + 1) = k + 1 :=
    Config.vec_eq_self (x := k + 1) (by have := s.n_lt; omega)
  have fits : B.types.FitsBucket ((k + 1 : Nat) : Int) :=
    Config.fitsBucket_vec (by have := s.n_lt; omega)
  simp only [BucketBoruvka.update, accumulate, next, Config.bucket_eq_self fits, zero_add,
    show (1 : Int64).toInt = 1 from rfl, one_mul]

/-- A unit update of an empty bucket leaves the power as the checksum. -/
theorem unit_update_c {k : Nat} (hk : k < s.n) (r : Nat) :
    ((BucketBoruvka.update B.types {} ⟨k, 1⟩ s.largePrime r).c : Int) =
      powermod B.types r (k + 1) s.largePrime := by
  have next : B.types.vec ((k : Int) + 1) = k + 1 :=
    Config.vec_eq_self (x := k + 1) (by have := s.n_lt; omega)
  have large := s.two_le_largePrime
  have prime := s.largePrime_lt
  have below := powermod_lt (T := B.types) r (k + 1) large prime
  have exact := accumulate_c (T := B.types) {} ⟨k, 1⟩ (by omega) prime
    (show 0 < s.largePrime by omega) below
  rw [BucketBoruvka.update, next, exact]
  have unit : (0 : Int) + (1 : Int64).toInt * powermod B.types r (k + 1) s.largePrime =
      powermod B.types r (k + 1) s.largePrime := by
    rw [zero_add, show (1 : Int64).toInt = 1 from rfl, one_mul]
  rw [show ((BucketBoruvka.mk 0 0 0).c : Int) = 0 from rfl, unit]
  exact Int.emod_eq_of_lt (Int.natCast_nonneg _) (by exact_mod_cast below)

/-- A single unit update tells the seeds of a bucket apart. -/
theorem agree_of_cells_eq {i j k : Nat} (hk : k < s.n)
    (same : s.batchCell ⟨k, 1⟩ i j {} = s.updateCell ⟨k, 1⟩ i j {}) : s.SeedsAgree i j k := by
  by_cases batch : contains B k (s.batchSeed i j) (B.guessNonzero j) = true
  · by_cases kept : s.member i j k = true
    · refine ⟨batch.trans kept.symm, fun _ => ?_⟩
      rw [batchCell, updateCell, if_pos batch, if_pos kept] at same
      have powers := congrArg (fun bucket => (BucketBoruvka.c bucket : Int)) same
      simp only [s.unit_update_c hk] at powers
      exact_mod_cast powers
    · rw [batchCell, updateCell, if_pos batch, if_neg kept] at same
      have totals := congrArg BucketBoruvka.a same
      rw [s.unit_update_a] at totals
      exact absurd totals (by decide)
  · by_cases kept : s.member i j k = true
    · rw [batchCell, updateCell, if_neg batch, if_pos kept] at same
      have totals := congrArg BucketBoruvka.a same
      rw [s.unit_update_a] at totals
      exact absurd totals (by decide)
    · refine ⟨?_, fun h => absurd h kept⟩
      rw [Bool.eq_false_iff.mpr batch, Bool.eq_false_iff.mpr kept]

/-- On the indices of a set, `batch_update` is the sequence of `update` calls, for
every sketch state and every list of updates, exactly when the position seed and
the column seed of every bucket agree on those indices. -/
theorem batchUpdate_eq_updateAll_iff (B : Build) {n : Nat} (hn : n < 2 ^ B.types.vecBits)
    (seed : Int64) (indices : Set Nat) (bound : ∀ k ∈ indices, k < n) :
    (∀ s : AGMSketch B, s.n = n → s.seed = seed → ∀ updates : List Update,
      (∀ u ∈ updates, u.index ∈ indices) → s.batchUpdate updates = some (s.updateAll updates)) ↔
    ∀ i < B.bucketGen n, ∀ j < B.guessGen n, ∀ k ∈ indices,
      (new B n seed hn).SeedsAgree i j k := by
  constructor
  · intro same i hi j hj k hk
    have single := same (new B n seed hn) rfl rfl [⟨k, 1⟩] (by simpa using hk)
    have within : ∀ u ∈ [(⟨k, 1⟩ : Update)], u.index < n := by simpa using bound k hk
    obtain ⟨t, done, -, -, -, cell⟩ := (new B n seed hn).batchUpdate_spec within
    rw [done] at single
    cases Option.some.inj single
    have batch := cell i hi j hj
    rw [updateAll_bucketAt_cell _ _ hi hj, new_bucketAt] at batch
    exact agree_of_cells_eq _ (bound k hk) batch.symm
  · intro agree s length seeds updates inside
    subst length seeds
    apply s.batchUpdate_of_agree (fun u hu => bound _ (inside u hu))
    intro i hi j hj u hu
    have prime : s.largePrime = (new B s.n s.seed hn).largePrime := largePrime_unique rfl
    have given := agree i hi j hj u.index (inside u hu)
    simp only [SeedsAgree, columnR, ← prime] at given ⊢
    exact given

/-- A constant hash makes the two seeds of every bucket agree. -/
theorem batchUpdate_eq_updateAll_constant :
    let B : Build := { Build.sample .native with XXH64 := fun _ _ => 4 }
    ((new B 2 0 (by decide)).batchUpdate [⟨0, 1⟩, ⟨1, -3⟩]) =
      some ((new B 2 0 (by decide)).updateAll [⟨0, 1⟩, ⟨1, -3⟩]) := by
  intro B
  refine (batchUpdate_eq_updateAll_iff B (n := 2) (by decide) 0 {k | k < 2}
    (fun k hk => hk)).mpr ?_ _ rfl rfl _ (by simp)
  intro i hi j hj k hk
  obtain ⟨rfl | rfl, rfl | rfl | rfl⟩ : (i = 0 ∨ i = 1) ∧ (j = 0 ∨ j = 1 ∨ j = 2) := by
    have columns : B.bucketGen 2 = 2 := by decide
    have levels : B.guessGen 2 = 3 := by decide
    omega
  all_goals
    obtain rfl | rfl : k = 0 ∨ k = 1 := by
      have : k < 2 := hk
      omega
  all_goals decide +kernel

/-- Bucket `(0, 1)` is seeded with 1 by `batch_update` and with 0 by `update`; with
the additive hash only the first samples index 0. -/
theorem batchUpdate_ne_updateAll :
    let s := new (Build.sample .native) 2 0 (by decide)
    (s.batchUpdate [⟨0, 1⟩]).map (fun t => t.buckets) ≠
      some (s.updateAll [⟨0, 1⟩]).buckets := by
  decide +kernel

end AGMSketch
end Zeppelin.Sketch
