import Zeppelin.Sketch.Bucket
import Zeppelin.Linear.Collisions

/-! Soundness of the fingerprint test. For a bucket whose net vector does not have
exactly one nonzero entry, `is_good` with base `r` says that the fingerprint of the
vector and of a one-entry vector of the same total collide at `r`; the collision
bound of the prime field limits the bases for which it is true. -/
namespace Zeppelin.Sketch

open PrimeGenerator BucketBoruvka

namespace BucketBoruvka

variable {B : Build}

/-- A good bucket reports an index in range that it contains. -/
theorem isGood_decodedIndex {bucket : BucketBoruvka} {n p r guess : Nat} {bucketSeed : UInt64}
    (hn : n < 2 ^ B.types.vecBits) (good : isGood B bucket n p bucketSeed r guess = some true) :
    bucket.decodedIndex B.types < n ∧
      contains B (bucket.decodedIndex B.types) bucketSeed guess = true := by
  simp only [isGood, Option.ite_none_left_eq_some, Option.some.injEq, Bool.and_eq_true,
    decide_eq_true_eq] at good
  obtain ⟨-, ⟨⟨⟨-, positive⟩, bound⟩, member⟩, -⟩ := good
  refine ⟨?_, member⟩
  rw [decodedIndex]
  obtain ⟨t, ht⟩ : ∃ t : Nat, bucket.b.tdiv bucket.a = t :=
    Int.eq_ofNat_of_zero_le positive.le
  rw [ht] at positive bound ⊢
  have shifted : ((t : Int) - 1) = ((t - 1 : Nat) : Int) := by omega
  rw [shifted, Config.vec_eq_self (by omega)]
  omega

section NetVector

variable {n p : Nat} {updates : List Update}

/-- The weights of a run whose net vector vanishes from `n` on. -/
theorem weigh_range (weight : Nat → Int) (support : ∀ k, netEntry updates k ≠ 0 → k < n) :
    Linear.weigh weight (history updates) =
      ∑ k ∈ Finset.range n, netEntry updates k * weight k := by
  apply Linear.weigh_eq_sum
  intro k outside
  by_contra nonzero
  exact outside (Finset.mem_range.mpr (support k nonzero))

/-- The bucket of a run in terms of its net vector. -/
theorem fill_net {T : Config} {r : Nat} (large : 2 ≤ p) (hp : p < 2 ^ T.bucketBits)
    (hr : r < p) (hn : n < 2 ^ T.vecBits) (support : ∀ k, netEntry updates k ≠ 0 → k < n)
    (total : T.FitsBucket (∑ k ∈ Finset.range n, netEntry updates k))
    (position : T.FitsBucket (∑ k ∈ Finset.range n, netEntry updates k * ((k : Int) + 1))) :
    let bucket := fill T p r updates
    bucket.a = ∑ k ∈ Finset.range n, netEntry updates k ∧
      bucket.b = ∑ k ∈ Finset.range n, netEntry updates k * ((k : Int) + 1) ∧
      (bucket.c : Int) = (∑ k ∈ Finset.range n, netEntry updates k * (r : Int) ^ (k + 1)) % p ∧
      bucket.c < p := by
  have next : ∀ k ∈ Finset.range n, T.vec ((k : Int) + 1) = k + 1 := by
    intro k inside
    have := Finset.mem_range.mp inside
    exact Config.vec_eq_self (x := k + 1) (by omega)
  have positions : ∑ k ∈ Finset.range n, netEntry updates k * (T.vec ((k : Int) + 1) : Int) =
      ∑ k ∈ Finset.range n, netEntry updates k * ((k : Int) + 1) := by
    apply Finset.sum_congr rfl
    intro k inside
    rw [next k inside]
    push_cast
    rfl
  have powers : ∑ k ∈ Finset.range n, netEntry updates k * (r : Int) ^ T.vec ((k : Int) + 1) =
      ∑ k ∈ Finset.range n, netEntry updates k * (r : Int) ^ (k + 1) := by
    apply Finset.sum_congr rfl
    intro k inside
    rw [next k inside]
  rw [fill_eq_encode large hp (hr.trans hp) updates, weigh_range _ support,
    weigh_range _ support, weigh_range _ support, positions, powers]
  simp only [mul_one]
  refine ⟨Config.bucket_eq_self total, Config.bucket_eq_self position, ?_, ?_⟩
  · exact encode_c _ _ _ (by omega)
  · exact encode_c_lt _ _ _ (by omega)

/-- Off the exponent `t` some entry survives, unless the vector is `t - 1` alone. -/
theorem exists_entry_off {t : Nat} (low : 1 ≤ t)
    (support : ∀ k, netEntry updates k ≠ 0 → k < n)
    (nonzero : (∑ k ∈ Finset.range n, netEntry updates k) ≠ 0)
    (several : ¬∃! k, netEntry updates k ≠ 0) :
    ∃ k < n, k + 1 ≠ t ∧ netEntry updates k ≠ 0 := by
  by_contra concentrated
  have vanish : ∀ k, k ≠ t - 1 → netEntry updates k = 0 := by
    intro k different
    by_contra entry
    exact concentrated ⟨k, support k entry, by omega, entry⟩
  apply several
  refine ⟨t - 1, ?_, ?_⟩
  · intro zero
    apply nonzero
    apply Finset.sum_eq_zero
    intro k _
    by_cases here : k = t - 1
    · rw [here, zero]
    · exact vanish k here
  · intro k entry
    by_contra different
    exact entry (vanish k different)

theorem abs_netEntry_le_sum (support : ∀ k, netEntry updates k ≠ 0 → k < n) (k : Nat) :
    |netEntry updates k| ≤ ∑ k ∈ Finset.range n, |netEntry updates k| := by
  by_cases zero : netEntry updates k = 0
  · rw [zero, abs_zero]
    exact Finset.sum_nonneg fun _ _ => abs_nonneg _
  · exact Finset.single_le_sum (f := fun k => |netEntry updates k|) (fun _ _ => abs_nonneg _)
      (Finset.mem_range.mpr (support k zero))

/-- A base that passes makes the two fixed sums a multiple of one another, with
the reported exponent, and collides there. -/
theorem isGood_collides {r guess : Nat} {bucketSeed : UInt64} (hn : n < 2 ^ B.types.vecBits)
    (large : 2 ≤ p) (hp : p < 2 ^ B.types.bucketBits) (hr : r < p)
    (support : ∀ k, netEntry updates k ≠ 0 → k < n)
    (spare : |∑ k ∈ Finset.range n, netEntry updates k| ≤ 2 ^ 62)
    (total : B.types.FitsBucket (∑ k ∈ Finset.range n, netEntry updates k))
    (position : B.types.FitsBucket (∑ k ∈ Finset.range n, netEntry updates k * ((k : Int) + 1)))
    (good : isGood B (fill B.types p r updates) n p bucketSeed r guess = some true) :
    (∑ k ∈ Finset.range n, netEntry updates k) ≠ 0 ∧ ∃ t : Nat, 1 ≤ t ∧ t ≤ n ∧
      ∑ k ∈ Finset.range n, netEntry updates k * ((k : Int) + 1) =
        (∑ k ∈ Finset.range n, netEntry updates k) * t ∧
      ∑ k ∈ Finset.range n, netEntry updates k * (r : Int) ^ (k + 1) ≡
        (∑ k ∈ Finset.range n, netEntry updates k) * (r : Int) ^ t [ZMOD p] := by
  obtain ⟨a, b, c, reduced⟩ := fill_net large hp hr hn support total position
  rw [isGood_iff hn large hp (hr.trans hp) reduced (by rw [a]; exact spare), a, b, c] at good
  obtain ⟨nonzero, t, low, high, multiple, -, congruent⟩ := good
  exact ⟨nonzero, t, low, high, multiple, (Int.mod_modEq _ _).symm.trans congruent⟩

end NetVector

/-- The fingerprint test, for a bucket filled by any run with net vector `x`: if
`x` does not have exactly one nonzero entry, at most `n` of the `p` bases pass, and
a passing bucket reports an index that is in range and contained. -/
theorem isGood_sound (B : Build) {n p : Nat} (hn : n < 2 ^ B.types.vecBits) (prime : p.Prime)
    (hp : p < 2 ^ B.types.bucketBits) (bucketSeed : UInt64) (guess : Nat) (updates : List Update)
    (support : ∀ k, netEntry updates k ≠ 0 → k < n ∧ contains B k bucketSeed guess = true)
    (small : ∑ k ∈ Finset.range n, |netEntry updates k| < min (p : Int) (2 ^ 62))
    (total : B.types.FitsBucket (∑ k ∈ Finset.range n, netEntry updates k))
    (position : B.types.FitsBucket (∑ k ∈ Finset.range n, netEntry updates k * ((k : Int) + 1))) :
    let bucket := fun r => fill B.types p r updates
    ((¬∃! k, netEntry updates k ≠ 0) →
      ((Finset.range p).filter fun r =>
        isGood B (bucket r) n p bucketSeed r guess = some true).card ≤ n) ∧
    ∀ r < p, isGood B (bucket r) n p bucketSeed r guess = some true →
      (bucket r).decodedIndex B.types < n ∧
        contains B ((bucket r).decodedIndex B.types) bucketSeed guess = true := by
  intro bucket
  refine ⟨?_, fun r _ good => isGood_decodedIndex hn good⟩
  intro several
  have : Fact p.Prime := ⟨prime⟩
  obtain ⟨smallPrime, smallLong⟩ := lt_min_iff.mp small
  have within : ∀ k, netEntry updates k ≠ 0 → k < n := fun k entry => (support k entry).1
  have spare : |∑ k ∈ Finset.range n, netEntry updates k| ≤ 2 ^ 62 :=
    (Finset.abs_sum_le_sum_abs _ _).trans smallLong.le
  have collide := fun r (hr : r < p) (good : isGood B (bucket r) n p bucketSeed r guess = some true) =>
    isGood_collides hn prime.two_le hp hr within spare total position good
  by_cases passes : ∃ r < p, isGood B (bucket r) n p bucketSeed r guess = some true
  · -- One base that passes fixes the exponent for all of them.
    obtain ⟨r₀, hr₀, good₀⟩ := passes
    obtain ⟨nonzero, t, low, high, multiple, -⟩ := collide r₀ hr₀ good₀
    apply Linear.card_bases_le (∑ k ∈ Finset.range n, netEntry updates k) high
      (fun k => (abs_netEntry_le_sum within k).trans_lt smallPrime)
      (exists_entry_off low within nonzero several)
    intro r hr good
    obtain ⟨-, t', -, -, multiple', congruent⟩ := collide r hr good
    have same : (t' : Int) = t := by
      apply mul_left_cancel₀ nonzero
      rw [← multiple', multiple]
    obtain rfl : t' = t := by exact_mod_cast same
    exact congruent
  · have empty : ((Finset.range p).filter fun r =>
        isGood B (bucket r) n p bucketSeed r guess = some true) = ∅ := by
      apply Finset.filter_eq_empty_iff.mpr
      intro r inside good
      exact passes ⟨r, Finset.mem_range.mp inside, good⟩
    rw [empty]
    exact Nat.zero_le n

/-- Two unit entries modulo 11: at most three bases can pass. -/
theorem isGood_sound_sample :
    ((Finset.range 11).filter fun r =>
      isGood (Build.sample .native) (fill .native 11 r [⟨0, 1⟩, ⟨1, 1⟩]) 3 11 0 r 1 = some true).card
        ≤ 3 := by
  have indices : ∀ u ∈ ([⟨0, 1⟩, ⟨1, 1⟩] : List Update), u.index < 3 := by decide
  refine (isGood_sound (Build.sample .native) (by decide) (by decide) (by decide) 0 1
    [⟨0, 1⟩, ⟨1, 1⟩] (fun k nonzero => ⟨netEntry_index_lt indices nonzero, contains_one _ k 0⟩)
    (by decide +kernel) (by decide +kernel) (by decide +kernel)).1 ?_
  rintro ⟨k, -, unique⟩
  have zero := unique 0 (by decide)
  have one := unique 1 (by decide)
  omega

end BucketBoruvka
end Zeppelin.Sketch
