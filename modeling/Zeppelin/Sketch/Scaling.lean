import Zeppelin.Sketch.Addition

/-! `operator*`. The two moments are multiplied exactly, but the fingerprint is
multiplied in `ubucket_t` before it is reduced, and the prime is odd, so a
product that is negative or too large for `ubucket_t` leaves the wrong residue. -/
namespace Zeppelin.Sketch

open PrimeGenerator BucketBoruvka

/-- The product of the fingerprint and the factor is a `ubucket_t` as it is. -/
def ProductFits (T : Config) (factor : Int64) (bucket : BucketBoruvka) : Prop :=
  0 ≤ bucket.c * factor.toInt ∧ bucket.c * factor.toInt < 2 ^ T.bucketBits

instance (T : Config) (factor : Int64) (bucket : BucketBoruvka) :
    Decidable (ProductFits T factor bucket) := inferInstanceAs (Decidable (_ ∧ _))

section Bucket

variable {T : Config} {p : Nat}

theorem scaleBucket_c (factor : Int64) (bucket : BucketBoruvka) :
    (scaleBucket T p factor bucket).c =
      Word.unsigned T.bucketBits (bucket.c * factor.toInt) % p := by
  have once : Word.unsigned T.bucketBits (bucket.c * Word.unsigned T.bucketBits factor.toInt) =
      Word.unsigned T.bucketBits (bucket.c * factor.toInt) := by
    rw [Word.unsigned, Word.unsigned_cast, Word.unsigned]
    exact congrArg Int.toNat (Int.ModEq.mul_left _ (Int.mod_modEq _ _))
  simp only [scaleBucket, Config.ubucket, once]

/-- A reduced fingerprint times a `long` is too small to wrap to its own residue. -/
theorem abs_product_lt {c : Nat} (hc : c < p) (factor : Int64) :
    |(c : Int) * factor.toInt| < p * 2 ^ (T.bucketBits - 1) := by
  have low := factor.le_toInt
  have high := factor.toInt_lt
  have magnitude : |factor.toInt| ≤ 2 ^ (T.bucketBits - 1) := by
    have wide : (2 : Int) ^ 63 ≤ 2 ^ (T.bucketBits - 1) := by cases T <;> decide
    rw [abs_le]
    constructor <;> omega
  have below : (c : Int) < p := by exact_mod_cast hc
  rw [abs_mul, Nat.abs_cast]
  calc (c : Int) * |factor.toInt| ≤ c * 2 ^ (T.bucketBits - 1) :=
        Int.mul_le_mul_of_nonneg_left magnitude (Int.natCast_nonneg c)
    _ < p * 2 ^ (T.bucketBits - 1) := Int.mul_lt_mul_of_pos_right below (by positivity)

/-- Scaling an encoded bucket scales the integers it stands for exactly when the
fingerprint product does not wrap. -/
theorem scaleBucket_encode_iff (odd : p % 2 = 1) (large : 2 ≤ p) (factor : Int64)
    (total position fingerprint : Int) :
    scaleBucket T p factor (encode T p total position fingerprint) =
        encode T p (factor.toInt * total) (factor.toInt * position)
          (factor.toInt * fingerprint) ↔
      ProductFits T factor (encode T p total position fingerprint) := by
  have positive : 0 < p := by omega
  have stored := encode_c (T := T) total position fingerprint positive
  have below := encode_c_lt (T := T) total position fingerprint positive
  have wanted : ((encode T p (factor.toInt * total) (factor.toInt * position)
      (factor.toInt * fingerprint)).c : Int) =
      ((encode T p total position fingerprint).c * factor.toInt) % p := by
    rw [encode_c _ _ _ positive, stored, mul_comm]
    exact (Int.ModEq.mul_right _ (Int.mod_modEq _ _)).symm
  rw [ProductFits, ← Word.unsigned_mod_eq_iff T.bucketBits_pos odd large
    (abs_product_lt below factor), ← wanted, ← scaleBucket_c, Nat.cast_inj]
  constructor
  · exact congrArg BucketBoruvka.c
  · intro same
    apply BucketBoruvka.ext _ _ same
    · simp only [scaleBucket, encode, Config.bucket, Word.signed_mul_signed, mul_comm factor.toInt]
    · simp only [scaleBucket, encode, Config.bucket, Word.signed_mul_signed, mul_comm factor.toInt]

theorem scaleBucket_fill_iff {r : Nat} (odd : p % 2 = 1) (large : 2 ≤ p)
    (hp : p < 2 ^ T.bucketBits) (hr : r < 2 ^ T.bucketBits) {factor : Int64}
    {updates : List Update} (fits : ScaledFits factor updates) :
    scaleBucket T p factor (fill T p r updates) = fill T p r (scaleUpdates factor updates) ↔
      ProductFits T factor (fill T p r updates) := by
  rw [fill_scaleUpdates large hp hr fits, fill_eq_encode large hp hr]
  exact scaleBucket_encode_iff odd large factor _ _ _

end Bucket

namespace AGMSketch

variable {B : Build}

theorem scale_bucketAt (s : AGMSketch B) (factor : Int64) {i j : Nat} (hi : i < s.numBuckets)
    (hj : j < s.numGuesses) :
    (s.scale factor).bucketAt i j = scaleBucket B.types s.largePrime factor (s.bucketAt i j) := by
  obtain ⟨length, -, -, scaled⟩ := s.scale_spec factor
  have guesses : (s.scale factor).numGuesses = s.numGuesses := congrArg B.guessGen length
  rw [bucketAt, scaled, guesses, List.getD_eq_getElem?_getD, List.getElem?_map, s.bucketAt_get hi hj]
  rfl

/-- Scaling a sketch is sketching the scaled updates exactly when no fingerprint
of the sketch has a product with the factor that wraps. -/
theorem scale_homomorphism_iff (B : Build) {n : Nat} (hn2 : 2 ≤ n) (hn : n < 2 ^ B.types.vecBits)
    (seed : Int64) {updates : List Update} {factor : Int64} (fits : ScaledFits factor updates) :
    let s := new B n seed hn
    ((s.updateAll updates).scale factor).buckets =
        (s.updateAll (scaleUpdates factor updates)).buckets ↔
      ∀ b ∈ (s.updateAll updates).buckets, ProductFits B.types factor b := by
  intro s
  obtain ⟨length, -, prime, -⟩ := s.updateAll_frame updates
  obtain ⟨length', -, -, -⟩ := s.updateAll_frame (scaleUpdates factor updates)
  obtain ⟨length'', -, -, -⟩ := (s.updateAll updates).scale_spec factor
  rw [buckets_ext_iff ((length''.trans length).trans length'.symm), forall_mem_buckets]
  simp only [numBuckets, numGuesses, length'', length]
  refine forall₂_congr fun i hi => forall₂_congr fun j hj => ?_
  have base := s.columnR_lt i hn2
  have kept : ScaledFits factor (s.accepted i j updates) :=
    fun u member => fits u (List.mem_filter.mp member).1
  rw [scale_bucketAt _ factor (by rwa [numBuckets, length]) (by rwa [numGuesses, length]), prime,
    new_updateAll_fill seed hn updates hi hj, new_updateAll_fill seed hn _ hi hj]
  rw [show s.accepted i j (scaleUpdates factor updates) =
    scaleUpdates factor (s.accepted i j updates) from filter_scaleUpdates factor _ updates]
  exact scaleBucket_fill_iff s.largePrime_spec.2.2.1 s.two_le_largePrime s.largePrime_lt base kept

theorem scale_homomorphism_double :
    ((new (Build.sample .native) 2 0 (by decide)).updateAll [⟨0, 1⟩, ⟨1, -3⟩] |>.scale 2).buckets =
      ((new (Build.sample .native) 2 0 (by decide)).updateAll [⟨0, 2⟩, ⟨1, -6⟩]).buckets := by
  have fits : ScaledFits 2 [⟨0, 1⟩, ⟨1, -3⟩] := by decide
  exact (scale_homomorphism_iff (Build.sample .native) (n := 2) (by decide) (by decide) 0 fits).mpr
    (by decide +kernel)

/-- Negating the sketch of one unit update leaves the wrong fingerprint, although
every delta and every moment fits. -/
theorem scale_homomorphism_neg :
    let s := (new (Build.sample .native) 2 0 (by decide)).updateAll [⟨0, 1⟩]
    ScaledFits (-1) [⟨0, 1⟩] ∧
      (∀ b ∈ s.buckets, Config.native.FitsBucket (b.a * -1) ∧ Config.native.FitsBucket (b.b * -1)) ∧
      ¬(s.scale (-1)).buckets =
        ((new (Build.sample .native) 2 0 (by decide)).updateAll
          (scaleUpdates (-1) [⟨0, 1⟩])).buckets := by
  decide +kernel

end AGMSketch

end Zeppelin.Sketch
