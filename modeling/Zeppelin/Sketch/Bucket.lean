import Zeppelin.Sketch.PrimeGenerator
import Zeppelin.Linear.Moments

/-! `bucket.h` and `bucket.cpp`. A bucket keeps two integer moments and a
polynomial fingerprint of the updates it contains. The functions compute in the
machine types of the configuration; `encode` is the bucket of three exact
integers, and `update_encode` says that one update of the machine bucket is one
addition to each of them. -/
namespace Zeppelin.Sketch

open PrimeGenerator

@[ext]
structure BucketBoruvka where
  a : Int := 0
  b : Int := 0
  c : Nat := 0
  deriving DecidableEq

namespace BucketBoruvka

def genBucketSeed (B : Build) (bucketId : Nat) (seed : Int64) : UInt64 :=
  B.XXH64 (littleEndian 4 bucketId) seed.toUInt64

/-- `large_prime` is at least 3, so the subtraction does not wrap. -/
def genR (bucketSeed : UInt64) (largePrime : Nat) : Nat := 2 + bucketSeed.toNat % (largePrime - 3)

def contains (B : Build) (index : Nat) (bucketSeed : UInt64) (guessNonzero : Nat) : Bool :=
  let buf := B.types.vec ((index : Int) + 1)
  let hash := B.XXH64 (littleEndian (B.types.vecBits / 8) buf) bucketSeed
  hash.toNat % guessNonzero = 0

/-- `b % a` and `b / a` of the least `bucket_t` and `-1`: C++ gives them no value,
and the native division instruction traps. -/
def Traps (T : Config) (bucket : BucketBoruvka) : Prop :=
  bucket.a = -1 ∧ bucket.b = -2 ^ (T.bucketBits - 1)

instance (T : Config) (bucket : BucketBoruvka) : Decidable (bucket.Traps T) :=
  inferInstanceAs (Decidable (_ ∧ _))

/-- The conjunction of `is_good`, in order; `none` when its first division traps.
Every other quotient of two `bucket_t` values is a `bucket_t`. -/
def isGood (B : Build) (bucket : BucketBoruvka) (n largePrime : Nat) (bucketSeed : UInt64)
    (r guessNonzero : Nat) : Option Bool :=
  let T := B.types
  let quotient := bucket.b.tdiv bucket.a
  if bucket.Traps T then none
  else some (bucket.a ≠ 0 && bucket.b.tmod bucket.a = 0 && 0 < quotient && quotient ≤ n &&
    contains B (T.vec (quotient - 1)) bucketSeed guessNonzero &&
    ((T.prod (T.prod ((bucket.c : Int) + largePrime) -
        T.prod (bucket.a * powermod T r (T.ubucket quotient) largePrime))).tmod
      largePrime).tmod largePrime = 0)

/-- The index that `query` reports for a good bucket, shifted back to base 0. -/
def decodedIndex (T : Config) (bucket : BucketBoruvka) : Nat :=
  T.vec (bucket.b.tdiv bucket.a - 1)

/-- The common body of `update` and `cached_update`, given the power of `r`. -/
def accumulate (T : Config) (bucket : BucketBoruvka) (update : Update) (largePrime power : Nat) :
    BucketBoruvka where
  a := T.bucket (bucket.a + update.delta.toInt)
  b := T.bucket (bucket.b +
    T.bucket (update.delta.toInt * T.bucket (T.vec ((update.index : Int) + 1))))
  c := T.ubucket ((T.prod (T.prod ((bucket.c : Int) + largePrime) +
    (T.prod (update.delta.toInt * power)).tmod largePrime)).tmod largePrime)

def update (T : Config) (bucket : BucketBoruvka) (update : Update) (largePrime r : Nat) :
    BucketBoruvka :=
  bucket.accumulate T update largePrime (powermod T r (T.vec ((update.index : Int) + 1)) largePrime)

/-- A bucket filled by a run of updates with one base. -/
def fill (T : Config) (largePrime r : Nat) (updates : List Update) : BucketBoruvka :=
  updates.foldl (fun bucket u => bucket.update T u largePrime r) {}

/-- `none` is a read past the end of the cache. -/
def cachedUpdate (T : Config) (bucket : BucketBoruvka) (update : Update) (largePrime : Nat)
    (rSqCache : List Nat) : Option BucketBoruvka :=
  (cachedPowermod T rSqCache (T.vec ((update.index : Int) + 1)) largePrime).map
    (bucket.accumulate T update largePrime)

/-- The `bucket_prod_t` values computed on the way to the new `c`. -/
def prodIntermediates (bucket : BucketBoruvka) (update : Update) (largePrime power : Nat) :
    List Int :=
  [(bucket.c : Int) + largePrime, update.delta.toInt * power,
    (bucket.c : Int) + largePrime + (update.delta.toInt * power).tmod largePrime]

/-- `index + 1`, which wraps to 0 at the top of `vec_t`, is at most `n`. -/
theorem cachedPowermod_index {T : Config} {n index : Nat} (within : index < n) (largePrime r : Nat) :
    cachedPowermod T (genSqCache T r n largePrime) (T.vec ((index : Int) + 1)) largePrime =
      some (powermod T r (T.vec ((index : Int) + 1)) largePrime) := by
  apply cachedPowermod_eq
  have wrapped : T.vec ((index : Int) + 1) = (index + 1) % 2 ^ T.vecBits :=
    Word.unsigned_eq_mod T.vecBits (index + 1)
  rw [wrapped]
  exact (Nat.mod_le _ _).trans within

theorem cachedUpdate_eq {T : Config} {n : Nat} {u : Update} (within : u.index < n)
    (bucket : BucketBoruvka) (largePrime r : Nat) :
    bucket.cachedUpdate T u largePrime (genSqCache T r n largePrime) =
      some (bucket.update T u largePrime r) := by
  rw [cachedUpdate, update, cachedPowermod_index within, Option.map_some]

/-- The cached power never reads past the cache, and the cached update is the
plain one. -/
theorem cached_agrees (T : Config) (n m r : Nat) (u : Update) (within : u.index < n)
    (bucket : BucketBoruvka) :
    (cachedPowermod T (genSqCache T r n m) (T.vec ((u.index : Int) + 1)) m).isSome ∧
      bucket.cachedUpdate T u m (genSqCache T r n m) = some (bucket.update T u m r) := by
  refine ⟨?_, cachedUpdate_eq within bucket m r⟩
  rw [cachedPowermod_index within, Option.isSome_some]

/-- The tight case: `index + 1 = n` is a power of two. -/
theorem cached_agrees_tight :
    (⟨7, -3⟩ : Update).index < 8 ∧
      (cachedPowermod .native (genSqCache .native 5 8 13) (Config.native.vec 8) 13).isSome ∧
      ({} : BucketBoruvka).cachedUpdate .native ⟨7, -3⟩ 13 (genSqCache .native 5 8 13) =
        some (({} : BucketBoruvka).update .native ⟨7, -3⟩ 13 5) :=
  ⟨by decide, cached_agrees .native 8 13 5 ⟨7, -3⟩ (by decide) {}⟩

end BucketBoruvka

/-- A history of updates as index and delta pairs. -/
def history (updates : List Update) : List (Nat × Int) :=
  updates.map fun u => (u.index, u.delta.toInt)

/-- Entry `k` of the net vector of a history. -/
def netEntry (updates : List Update) (k : Nat) : Int := Linear.entry (history updates) k

theorem history_append (first second : List Update) :
    history (first ++ second) = history first ++ history second := List.map_append

theorem history_filter (member : Nat → Bool) (updates : List Update) :
    history (updates.filter fun u => member u.index) =
      (history updates).filter fun e => member e.1 := by
  simp only [history, List.filter_map, Function.comp_def]

/-- The updates with every delta multiplied by a factor. -/
def scaleUpdates (factor : Int64) (updates : List Update) : List Update :=
  updates.map fun u => { u with delta := u.delta * factor }

/-- Every multiplied delta is a `long` again. -/
def ScaledFits (factor : Int64) (updates : List Update) : Prop :=
  ∀ u ∈ updates, Word.FitsSigned 64 (u.delta.toInt * factor.toInt)

instance (factor : Int64) (updates : List Update) : Decidable (ScaledFits factor updates) :=
  inferInstanceAs (Decidable (∀ u ∈ updates, Word.FitsSigned 64 (u.delta.toInt * factor.toInt)))

theorem history_scaleUpdates {factor : Int64} {updates : List Update}
    (fits : ScaledFits factor updates) :
    history (scaleUpdates factor updates) =
      (history updates).map fun e => (e.1, factor.toInt * e.2) := by
  simp only [history, scaleUpdates, List.map_map]
  apply List.map_congr_left
  intro u member
  have product : (u.delta * factor).toInt = factor.toInt * u.delta.toInt := by
    rw [Int64.toInt_mul, mul_comm factor.toInt]
    exact Word.signed_eq_self (by decide) (fits u member)
  simp only [Function.comp_apply, product]

theorem filter_scaleUpdates (factor : Int64) (member : Nat → Bool) (updates : List Update) :
    (scaleUpdates factor updates).filter (fun u => member u.index) =
      scaleUpdates factor (updates.filter fun u => member u.index) := by
  simp only [scaleUpdates, List.filter_map, Function.comp_def]

theorem netEntry_index_lt {n : Nat} {updates : List Update} (indices : ∀ u ∈ updates, u.index < n)
    {k : Nat} (nonzero : netEntry updates k ≠ 0) : k < n := by
  by_contra beyond
  apply nonzero
  apply Linear.entry_eq_zero
  intro e member
  obtain ⟨u, hu, rfl⟩ := List.mem_map.mp member
  have := indices u hu
  exact fun same => beyond (same ▸ this)

/-- A property of all net entries is checked on the indices below `n`. -/
theorem forall_netEntry {n : Nat} {updates : List Update} (indices : ∀ u ∈ updates, u.index < n)
    {P : Nat → Int → Prop} (beyond : ∀ k, n ≤ k → P k 0)
    (below : ∀ k < n, P k (netEntry updates k)) (k : Nat) : P k (netEntry updates k) := by
  by_cases inside : k < n
  · exact below k inside
  · have zero : netEntry updates k = 0 := by
      by_contra nonzero
      exact inside (netEntry_index_lt indices nonzero)
    rw [zero]
    exact beyond k (by omega)

namespace BucketBoruvka

variable {T : Config} {p : Nat}

section Headroom

theorem abs_delta_le (u : Update) : |u.delta.toInt| ≤ 2 ^ 63 := by
  have low := u.delta.le_toInt
  have high := u.delta.toInt_lt
  rw [abs_le]
  constructor <;> omega

theorem abs_mul_lt {x : Int} {y h : Nat} (hx : |x| ≤ 2 ^ h) (hy : y < 2 ^ T.bucketBits) :
    |x * y| < 2 ^ (h + T.bucketBits) := by
  have below : (y : Int) < 2 ^ T.bucketBits := by exact_mod_cast hy
  rw [abs_mul, pow_add, Nat.abs_cast]
  calc |x| * y ≤ 2 ^ h * y := Int.mul_le_mul_of_nonneg_right hx (Int.natCast_nonneg y)
    _ < 2 ^ h * 2 ^ T.bucketBits := Int.mul_lt_mul_of_pos_left below (by positivity)

theorem fitsProd_small {x : Int} (h : |x| ≤ 2 ^ (T.bucketBits + 2)) : T.FitsProd x := by
  apply Config.fitsProd_of_abs_lt
  refine h.trans_lt ?_
  cases T <;> decide

/-- A `long` times a `ubucket_t` is a `bucket_prod_t`. -/
theorem fitsProd_delta_mul (u : Update) {y : Nat} (hy : y < 2 ^ T.bucketBits) :
    T.FitsProd (u.delta.toInt * y) := by
  apply Config.fitsProd_of_abs_lt
  refine (abs_mul_lt (abs_delta_le u) hy).trans_le ?_
  cases T <;> decide

/-- The difference formed by `is_good` is exact when `a` has one spare bit. -/
theorem fitsProd_sub_mul {x z : Int} {y : Nat} (hx : |x| ≤ 2 ^ 62) (hy : y < 2 ^ T.bucketBits)
    (hz : |z| ≤ 2 ^ (T.bucketBits + 2)) : T.FitsProd (z - x * y) := by
  apply Config.fitsProd_of_abs_lt
  have product := abs_mul_lt hx hy
  have room : (2 : Int) ^ (62 + T.bucketBits) + 2 ^ (T.bucketBits + 2) ≤
      2 ^ (2 * T.bucketBits - 1) := by cases T <;> decide
  calc |z - x * y| ≤ |z| + |x * y| := abs_sub _ _
    _ < 2 ^ (2 * T.bucketBits - 1) := by linarith

theorem abs_sum_le {c : Nat} (hc : c < 2 ^ T.bucketBits) (hp : p < 2 ^ T.bucketBits) {x : Int}
    (hx : |x| ≤ p) : |(c : Int) + p + x| ≤ 2 ^ (T.bucketBits + 2) := by
  have hc' : (c : Int) < 2 ^ T.bucketBits := by exact_mod_cast hc
  have hp' : (p : Int) < 2 ^ T.bucketBits := by exact_mod_cast hp
  have low := abs_le.mp hx
  rw [abs_of_nonneg (by omega), pow_add]
  omega

theorem abs_tmod_le (x : Int) (positive : 0 < p) : |x.tmod p| ≤ p := by
  have low := Word.neg_lt_tmod x (p := (p : Int)) (by exact_mod_cast positive)
  have high := Int.tmod_lt_of_pos x (b := (p : Int)) (by exact_mod_cast positive)
  rw [abs_le]
  constructor <;> omega

/-- No intermediate of the fingerprint update leaves `bucket_prod_t`, whatever
the sign and size of the `long` delta. -/
theorem prodIntermediates_fit {bucket : BucketBoruvka} (u : Update) {power : Nat}
    (hc : bucket.c < 2 ^ T.bucketBits) (positive : 0 < p) (hp : p < 2 ^ T.bucketBits)
    (hpower : power < 2 ^ T.bucketBits) :
    ∀ x ∈ bucket.prodIntermediates u p power, T.FitsProd x := by
  intro x member
  simp only [prodIntermediates, List.mem_cons, List.not_mem_nil, or_false] at member
  rcases member with rfl | rfl | rfl
  · have small := abs_sum_le hc hp (x := 0) (by simp)
    exact fitsProd_small (by simpa using small)
  · exact fitsProd_delta_mul u hpower
  · exact fitsProd_small (abs_sum_le hc hp (abs_tmod_le _ positive))

end Headroom

section Encoding

/-- The bucket that stands for three exact integers. -/
def encode (T : Config) (p : Nat) (total position fingerprint : Int) : BucketBoruvka where
  a := T.bucket total
  b := T.bucket position
  c := (fingerprint % p).toNat

/-- The bucket of a history of index and delta pairs with base `r`: the sum of
the deltas, the sum weighted by the one-based index, and the fingerprint. -/
def ofHistory (T : Config) (p r : Nat) (events : List (Nat × Int)) : BucketBoruvka :=
  encode T p (Linear.weigh (fun _ => 1) events) (Linear.weigh (fun k : Nat => (k : Int) + 1) events)
    (Linear.weigh (fun k => (r : Int) ^ (k + 1)) events)

theorem encode_zero (T : Config) (p : Nat) : encode T p 0 0 0 = {} := by
  simp only [encode, Config.bucket, Word.signed, Int.zero_bmod, Int.zero_emod, Int.toNat_zero]

theorem encode_c (total position fingerprint : Int) (positive : 0 < p) :
    ((encode T p total position fingerprint).c : Int) = fingerprint % p :=
  Int.toNat_of_nonneg (Int.emod_nonneg _ (by omega))

theorem encode_c_lt (total position fingerprint : Int) (positive : 0 < p) :
    (encode T p total position fingerprint).c < p := by
  have exact := encode_c (T := T) total position fingerprint positive
  have below := Int.emod_lt_of_pos fingerprint (show (0 : Int) < p by exact_mod_cast positive)
  omega

/-- The new fingerprint, whatever the power is. -/
theorem accumulate_c_prod (bucket : BucketBoruvka) (u : Update) (power : Nat) (positive : 0 < p)
    (hp : p < 2 ^ T.bucketBits) (hc : bucket.c < p) :
    ((bucket.accumulate T u p power).c : Int) =
      (bucket.c + T.prod (u.delta.toInt * power)) % p := by
  have first : T.FitsProd ((bucket.c : Int) + p) := by
    have small := abs_sum_le (hc.trans hp) hp (x := 0) (by simp)
    exact fitsProd_small (by simpa using small)
  have last : T.FitsProd ((bucket.c : Int) + p + (T.prod (u.delta.toInt * power)).tmod p) :=
    fitsProd_small (abs_sum_le (hc.trans hp) hp (abs_tmod_le _ positive))
  have positive' : (0 : Int) < p := by exact_mod_cast positive
  have nonneg := Int.emod_nonneg (bucket.c + T.prod (u.delta.toInt * power)) positive'.ne'
  have below := Int.emod_lt_of_pos (bucket.c + T.prod (u.delta.toInt * power)) positive'
  simp only [accumulate, Config.prod_eq_self first, Config.prod_eq_self last]
  rw [Word.tmod_shift _ (Int.natCast_nonneg _) positive', Config.ubucket, Word.unsigned_cast,
    Int.emod_eq_of_lt nonneg]
  exact below.trans (by exact_mod_cast hp)

/-- The new fingerprint, over the integers. -/
theorem accumulate_c (bucket : BucketBoruvka) (u : Update) {power : Nat} (positive : 0 < p)
    (hp : p < 2 ^ T.bucketBits) (hc : bucket.c < p) (hpower : power < p) :
    ((bucket.accumulate T u p power).c : Int) = (bucket.c + u.delta.toInt * power) % p := by
  rw [accumulate_c_prod bucket u power positive hp hc,
    Config.prod_eq_self (fitsProd_delta_mul u (hpower.trans hp))]

theorem accumulate_c_lt {bucket : BucketBoruvka} (u : Update) (power : Nat) (positive : 0 < p)
    (hp : p < 2 ^ T.bucketBits) (hc : bucket.c < p) :
    (bucket.accumulate T u p power).c < p := by
  have exact := accumulate_c_prod bucket u power positive hp hc
  have below := Int.emod_lt_of_pos (bucket.c + T.prod (u.delta.toInt * power))
    (show (0 : Int) < p by exact_mod_cast positive)
  rw [← exact] at below
  exact_mod_cast below

theorem fitsBucket_vec_cast (T : Config) (x : Int) : T.FitsBucket (T.vec x) :=
  Config.fitsBucket_vec (Word.unsigned_lt _ _)

/-- One update of an encoded bucket adds one term to each exact moment. -/
theorem update_encode {r : Nat} {total position fingerprint : Int} (u : Update) (large : 2 ≤ p)
    (hp : p < 2 ^ T.bucketBits) (hr : r < 2 ^ T.bucketBits) :
    (encode T p total position fingerprint).update T u p r =
      encode T p (total + u.delta.toInt)
        (position + u.delta.toInt * T.vec ((u.index : Int) + 1))
        (fingerprint + u.delta.toInt * (r : Int) ^ T.vec ((u.index : Int) + 1)) := by
  have positive : 0 < p := by omega
  have power := powermod_eq (T := T) (b := T.vec ((u.index : Int) + 1)) large hp hr
  have powerLt : powermod T r (T.vec ((u.index : Int) + 1)) p < p := powermod_lt r _ large hp
  rw [update]
  apply BucketBoruvka.ext
  · exact Word.signed_add_signed _ _ _
  · simp only [accumulate, encode]
    rw [Config.bucket_eq_self (fitsBucket_vec_cast T ((u.index : Int) + 1)), Config.bucket,
      Config.bucket, Config.bucket, Word.signed_add_signed, Word.signed_add_signed_right]
    rfl
  · have stored := encode_c (T := T) total position fingerprint positive
    have exact := accumulate_c (encode T p total position fingerprint) u positive hp
      (encode_c_lt (T := T) total position fingerprint positive) powerLt
    rw [stored] at exact
    apply Int.ofNat_inj.mp
    refine exact.trans ?_
    rw [encode_c _ _ _ positive, power]
    push_cast
    exact Int.ModEq.add (Int.mod_modEq _ _) (Int.ModEq.mul_left _ (Int.mod_modEq _ _))

/-- A run of updates from an encoded bucket adds the weights of the whole run. -/
theorem foldl_update_encode {r : Nat} (large : 2 ≤ p) (hp : p < 2 ^ T.bucketBits)
    (hr : r < 2 ^ T.bucketBits) (updates : List Update) (total position fingerprint : Int) :
    updates.foldl (fun bucket u => bucket.update T u p r) (encode T p total position fingerprint) =
      encode T p (total + Linear.weigh (fun _ => 1) (history updates))
        (position + Linear.weigh (fun k : Nat => (T.vec ((k : Int) + 1) : Int)) (history updates))
        (fingerprint + Linear.weigh (fun k : Nat => (r : Int) ^ T.vec ((k : Int) + 1))
          (history updates)) := by
  induction updates generalizing total position fingerprint with
  | nil => simp only [history, Linear.weigh, List.foldl_nil, List.map_nil, List.sum_nil, add_zero]
  | cons u rest ih =>
    rw [List.foldl_cons, update_encode u large hp hr, ih]
    simp only [history, Linear.weigh, List.map_cons, List.sum_cons, mul_one, add_assoc]

/-- A bucket filled from zero encodes the weights of its history. -/
theorem fill_eq_encode {r : Nat} (large : 2 ≤ p) (hp : p < 2 ^ T.bucketBits)
    (hr : r < 2 ^ T.bucketBits) (updates : List Update) :
    fill T p r updates =
      encode T p (Linear.weigh (fun _ => 1) (history updates))
        (Linear.weigh (fun k : Nat => (T.vec ((k : Int) + 1) : Int)) (history updates))
        (Linear.weigh (fun k : Nat => (r : Int) ^ T.vec ((k : Int) + 1)) (history updates)) := by
  rw [fill, ← encode_zero T p, foldl_update_encode large hp hr]
  simp only [zero_add]

/-- Multiplied deltas multiply the weights. -/
theorem fill_scaleUpdates {r : Nat} (large : 2 ≤ p) (hp : p < 2 ^ T.bucketBits)
    (hr : r < 2 ^ T.bucketBits) {factor : Int64} {updates : List Update}
    (fits : ScaledFits factor updates) :
    fill T p r (scaleUpdates factor updates) =
      encode T p (factor.toInt * Linear.weigh (fun _ => 1) (history updates))
        (factor.toInt *
          Linear.weigh (fun k : Nat => (T.vec ((k : Int) + 1) : Int)) (history updates))
        (factor.toInt *
          Linear.weigh (fun k : Nat => (r : Int) ^ T.vec ((k : Int) + 1)) (history updates)) := by
  rw [fill_eq_encode large hp hr, history_scaleUpdates fits]
  simp only [Linear.weigh_scale]

/-- While no `index + 1` wraps, that is the bucket of the history. -/
theorem fill_eq_ofHistory {r : Nat} (large : 2 ≤ p) (hp : p < 2 ^ T.bucketBits)
    (hr : r < 2 ^ T.bucketBits) {updates : List Update}
    (indices : ∀ u ∈ updates, u.index + 1 < 2 ^ T.vecBits) :
    fill T p r updates = ofHistory T p r (history updates) := by
  have next : ∀ e ∈ history updates, T.vec ((e.1 : Int) + 1) = e.1 + 1 := by
    intro e member
    obtain ⟨u, hu, rfl⟩ := List.mem_map.mp member
    exact Config.vec_eq_self (x := u.index + 1) (indices u hu)
  rw [fill_eq_encode large hp hr, ofHistory]
  congr 1
  · apply Linear.weigh_weight_congr
    intro e member
    rw [next e member]
    push_cast
    rfl
  · apply Linear.weigh_weight_congr
    intro e member
    rw [next e member]

/-- Equal net vectors give equal buckets. -/
theorem ofHistory_congr {r : Nat} {first second : List (Nat × Int)}
    (same : ∀ k, Linear.entry first k = Linear.entry second k) :
    ofHistory T p r first = ofHistory T p r second := by
  simp only [ofHistory, Linear.weigh_congr _ same]

end Encoding

section Decoding

variable {B : Build} {n r guess : Nat} {bucketSeed : UInt64} {bucket : BucketBoruvka}

/-- Level 0 contains every index. -/
theorem contains_one (B : Build) (k : Nat) (bucketSeed : UInt64) :
    contains B k bucketSeed 1 = true := by
  simp only [contains, Nat.mod_one, decide_true]

/-- A division that has a value lets `is_good` decide. -/
theorem isGood_eq_none_iff (n p : Nat) (bucketSeed : UInt64) (r guess : Nat) :
    isGood B bucket n p bucketSeed r guess = none ↔ bucket.Traps B.types := by
  rw [isGood]
  split <;> simp [*]

/-- A multiple of the total by a position of the vector is not the least `bucket_t`. -/
theorem not_traps_of_position (hn : n < 2 ^ B.types.vecBits) {t : Nat} (high : t ≤ n)
    (whole : bucket.b = bucket.a * t) : ¬bucket.Traps B.types := by
  rintro ⟨total, least⟩
  rw [total] at whole
  obtain ⟨-, below⟩ := Config.fitsBucket_vec (high.trans_lt hn)
  omega

/-- The signed comparison of fingerprints is a congruence. -/
theorem fingerprint_test (large : 2 ≤ p) (hp : p < 2 ^ T.bucketBits) (hr : r < 2 ^ T.bucketBits)
    (hc : bucket.c < p) (spare : |bucket.a| ≤ 2 ^ 62) (t : Nat) :
    ((T.prod (T.prod ((bucket.c : Int) + p) - T.prod (bucket.a * powermod T r t p))).tmod p).tmod p
        = 0 ↔ (bucket.c : Int) ≡ bucket.a * (r : Int) ^ t [ZMOD p] := by
  have small := abs_sum_le (T := T) (hc.trans hp) hp (x := 0) (by simp)
  rw [add_zero] at small
  have power := (powermod_lt (T := T) r t large hp).trans hp
  have product : T.FitsProd (bucket.a * powermod T r t p) := by
    have difference := fitsProd_sub_mul (x := -bucket.a) (z := 0) (by simpa using spare) power
      (by simp)
    simpa using difference
  rw [Config.prod_eq_self (fitsProd_small small), Config.prod_eq_self product,
    Config.prod_eq_self (fitsProd_sub_mul spare power small), Int.tmod_tmod,
    Word.tmod_eq_zero_iff, ← Int.dvd_iff_emod_eq_zero, powermod_eq large hp hr]
  have shifted : (bucket.c : Int) + p - bucket.a * ((r ^ t % p : Nat) : Int) =
      ((bucket.c : Int) - bucket.a * ((r ^ t % p : Nat) : Int)) + p := by ring
  rw [shifted, dvd_add_self_right, ← Int.modEq_iff_dvd]
  have reduced : bucket.a * ((r ^ t % p : Nat) : Int) ≡ bucket.a * (r : Int) ^ t [ZMOD p] := by
    push_cast
    exact Int.ModEq.mul_left _ (Int.mod_modEq _ _)
  constructor
  · intro congruent
    exact congruent.symm.trans reduced
  · intro congruent
    exact reduced.trans congruent.symm

/-- A position of the vector is a `ubucket_t`, and the index before it a `vec_t`. -/
theorem ubucket_position (hn : n < 2 ^ B.types.vecBits) {t : Nat} (high : t ≤ n) :
    B.types.ubucket (t : Int) = t := by
  apply Config.ubucket_eq_self
  refine high.trans_lt (hn.trans_le (Nat.pow_le_pow_right (by decide) ?_))
  rw [Config.bucketBits_eq]
  omega

theorem vec_position (hn : n < 2 ^ B.types.vecBits) {t : Nat} (low : 1 ≤ t) (high : t ≤ n) :
    B.types.vec ((t : Int) - 1) = t - 1 := by
  have same : ((t : Int) - 1) = ((t - 1 : Nat) : Int) := by omega
  rw [same, Config.vec_eq_self (by omega)]

/-- What `is_good` decides: the position is a whole multiple `t` of the total,
index `t - 1` is in range and in the bucket, and the fingerprint is the one of
the single entry `(t - 1, a)`. -/
theorem isGood_iff (hn : n < 2 ^ B.types.vecBits) (large : 2 ≤ p)
    (hp : p < 2 ^ B.types.bucketBits) (hr : r < 2 ^ B.types.bucketBits)
    (hc : bucket.c < p) (spare : |bucket.a| ≤ 2 ^ 62) :
    isGood B bucket n p bucketSeed r guess = some true ↔
      bucket.a ≠ 0 ∧ ∃ t : Nat, 1 ≤ t ∧ t ≤ n ∧ bucket.b = bucket.a * t ∧
        contains B (t - 1) bucketSeed guess = true ∧
        (bucket.c : Int) ≡ bucket.a * (r : Int) ^ t [ZMOD p] := by
  simp only [isGood, Option.ite_none_left_eq_some, Option.some.injEq, Bool.and_eq_true,
    decide_eq_true_eq]
  constructor
  · rintro ⟨-, ⟨⟨⟨⟨nonzero, multiple⟩, positive⟩, bound⟩, member⟩, test⟩
    obtain ⟨t, ht⟩ : ∃ t : Nat, bucket.b.tdiv bucket.a = t := Int.eq_ofNat_of_zero_le positive.le
    rw [ht] at positive bound member test
    have low : 1 ≤ t := by omega
    have high : t ≤ n := by omega
    rw [vec_position hn low high] at member
    rw [ubucket_position hn high] at test
    have whole := Int.mul_tdiv_add_tmod bucket.b bucket.a
    rw [multiple, add_zero, ht] at whole
    exact ⟨nonzero, t, low, high, whole.symm, member,
      (fingerprint_test large hp hr hc spare t).mp test⟩
  · rintro ⟨nonzero, t, low, high, whole, member, congruent⟩
    have quotient : bucket.b.tdiv bucket.a = t := by
      rw [whole, Int.mul_tdiv_cancel_left _ nonzero]
    rw [quotient, vec_position hn low high, ubucket_position hn high]
    have multiple : bucket.b.tmod bucket.a = 0 := by rw [whole, Int.mul_tmod_right]
    exact ⟨not_traps_of_position hn high whole, ⟨⟨⟨⟨nonzero, multiple⟩, by omega⟩, by omega⟩, member⟩,
      (fingerprint_test large hp hr hc spare t).mpr congruent⟩

end Decoding

end BucketBoruvka
end Zeppelin.Sketch
