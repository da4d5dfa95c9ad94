import Zeppelin.Sketch.AGMSketch

/-! The operators `+` and `+=`. Both merge the buckets position by position and
differ only in the query mark of the result. Every fingerprint of a reachable
sketch is reduced, so while twice the prime is a `ubucket_t` the sum of two
fingerprints does not wrap, and merging the sketches of two update sequences is
sketching their concatenation. -/
namespace Zeppelin.Sketch

open PrimeGenerator BucketBoruvka

section Merging

variable {T : Config} {p : Nat}

theorem mergeBucket_comm (x y : BucketBoruvka) : mergeBucket T p x y = mergeBucket T p y x := by
  simp only [mergeBucket, add_comm]

theorem mergeBucket_c_lt (positive : 0 < p) (x y : BucketBoruvka) :
    (mergeBucket T p x y).c < p := Nat.mod_lt _ positive

/-- Reduced fingerprints are added without wrapping. -/
theorem mergeBucket_c (room : 2 * p < 2 ^ T.bucketBits) {x y : BucketBoruvka} (hx : x.c < p)
    (hy : y.c < p) : (mergeBucket T p x y).c = (x.c + y.c) % p := by
  have small : x.c + y.c < 2 ^ T.bucketBits := by omega
  have exact : T.ubucket ((x.c : Int) + y.c) = x.c + y.c := by
    simpa only [Nat.cast_add] using Config.ubucket_eq_self small
  simp only [mergeBucket, exact]

theorem mergeBucket_assoc (positive : 0 < p) (room : 2 * p < 2 ^ T.bucketBits)
    {x y z : BucketBoruvka} (hx : x.c < p) (hy : y.c < p) (hz : z.c < p) :
    mergeBucket T p (mergeBucket T p x y) z = mergeBucket T p x (mergeBucket T p y z) := by
  apply BucketBoruvka.ext
  · simp only [mergeBucket, Config.bucket, Word.signed_add_signed, Word.signed_add_signed_right,
      add_assoc]
  · simp only [mergeBucket, Config.bucket, Word.signed_add_signed, Word.signed_add_signed_right,
      add_assoc]
  · rw [mergeBucket_c room (mergeBucket_c_lt positive x y) hz,
      mergeBucket_c room hx (mergeBucket_c_lt positive y z), mergeBucket_c room hx hy,
      mergeBucket_c room hy hz]
    simp only [Nat.mod_add_mod, Nat.add_mod_mod, add_assoc]

theorem zipWith_mergeBucket_assoc (positive : 0 < p) (room : 2 * p < 2 ^ T.bucketBits)
    {xs ys zs : List BucketBoruvka} (hx : ∀ b ∈ xs, b.c < p) (hy : ∀ b ∈ ys, b.c < p)
    (hz : ∀ b ∈ zs, b.c < p) :
    List.zipWith (mergeBucket T p) (List.zipWith (mergeBucket T p) xs ys) zs =
      List.zipWith (mergeBucket T p) xs (List.zipWith (mergeBucket T p) ys zs) := by
  induction xs generalizing ys zs with
  | nil => rfl
  | cons x xs ih =>
    cases ys with
    | nil => rfl
    | cons y ys =>
      cases zs with
      | nil => rfl
      | cons z zs =>
        simp only [List.forall_mem_cons] at hx hy hz
        simp only [List.zipWith_cons_cons, mergeBucket_assoc positive room hx.1 hy.1 hz.1,
          ih hx.2 hy.2 hz.2]

/-- Merging two encoded buckets adds the integers they stand for. -/
theorem mergeBucket_encode (positive : 0 < p) (room : 2 * p < 2 ^ T.bucketBits)
    (total position fingerprint total' position' fingerprint' : Int) :
    mergeBucket T p (encode T p total position fingerprint)
        (encode T p total' position' fingerprint') =
      encode T p (total + total') (position + position') (fingerprint + fingerprint') := by
  have left := encode_c (T := T) total position fingerprint positive
  have right := encode_c (T := T) total' position' fingerprint' positive
  apply BucketBoruvka.ext
  · simp only [mergeBucket, encode, Config.bucket, Word.signed_add_signed,
      Word.signed_add_signed_right]
  · simp only [mergeBucket, encode, Config.bucket, Word.signed_add_signed,
      Word.signed_add_signed_right]
  · apply Int.ofNat_inj.mp
    rw [mergeBucket_c room (encode_c_lt _ _ _ positive) (encode_c_lt _ _ _ positive),
      encode_c _ _ _ positive]
    push_cast
    rw [left, right, ← Int.add_emod]

/-- Merging two filled buckets gives the bucket filled by both. -/
theorem mergeBucket_fill {r : Nat} (large : 2 ≤ p) (hp : p < 2 ^ T.bucketBits)
    (hr : r < 2 ^ T.bucketBits) (room : 2 * p < 2 ^ T.bucketBits) (first second : List Update) :
    mergeBucket T p (fill T p r first) (fill T p r second) = fill T p r (first ++ second) := by
  simp only [fill_eq_encode large hp hr, mergeBucket_encode (show 0 < p by omega) room,
    history_append, Linear.weigh_append]

/-- A bucket merged with the one of the negated updates is zero. -/
theorem mergeBucket_fill_neg {r : Nat} (large : 2 ≤ p) (hp : p < 2 ^ T.bucketBits)
    (hr : r < 2 ^ T.bucketBits) (room : 2 * p < 2 ^ T.bucketBits) {updates : List Update}
    (fits : ScaledFits (-1) updates) :
    mergeBucket T p (fill T p r updates) (fill T p r (scaleUpdates (-1) updates)) = {} := by
  have minus : (-1 : Int64).toInt = -1 := by decide
  rw [fill_scaleUpdates large hp hr fits, fill_eq_encode large hp hr,
    mergeBucket_encode (show 0 < p by omega) room]
  simp only [minus, neg_one_mul, add_neg_cancel, encode_zero]

end Merging

namespace AGMSketch

variable {B : Build}

section Operators

variable {s t : AGMSketch B}

/-- What `operator+` returns, once its assertions hold. -/
theorem add_spec (same : s.Compatible t) : ∃ sum, s.add t = some sum ∧ sum.n = s.n ∧
    sum.seed = s.seed ∧ sum.alreadyQuered = false ∧
    sum.buckets = List.zipWith (mergeBucket B.types s.largePrime) s.buckets t.buckets := by
  have prime : (new B s.n s.seed s.n_lt).largePrime = s.largePrime := largePrime_unique rfl
  refine ⟨_, dif_pos same, rfl, rfl, rfl, ?_⟩
  rw [← prime]

theorem addAssign_spec (same : s.Compatible t) : ∃ sum, s.addAssign t = some sum ∧ sum.n = s.n ∧
    sum.seed = s.seed ∧ sum.alreadyQuered = (s.alreadyQuered || t.alreadyQuered) ∧
    sum.buckets = List.zipWith (mergeBucket B.types s.largePrime) s.buckets t.buckets :=
  ⟨_, dif_pos same, rfl, rfl, rfl, rfl⟩

theorem scale_spec (s : AGMSketch B) (factor : Int64) : (s.scale factor).n = s.n ∧
    (s.scale factor).seed = s.seed ∧ (s.scale factor).alreadyQuered = false ∧
    (s.scale factor).buckets = s.buckets.map (scaleBucket B.types s.largePrime factor) := by
  have prime : (new B s.n s.seed s.n_lt).largePrime = s.largePrime := largePrime_unique rfl
  refine ⟨rfl, rfl, rfl, ?_⟩
  rw [← prime]
  rfl

/-- Merged buckets, cell by cell. -/
theorem merged_bucketAt {sum : AGMSketch B} (same : s.Compatible t) (length : sum.n = s.n)
    (merged : sum.buckets =
      List.zipWith (mergeBucket B.types s.largePrime) s.buckets t.buckets)
    {i j : Nat} (hi : i < s.numBuckets) (hj : j < s.numGuesses) :
    sum.bucketAt i j = mergeBucket B.types s.largePrime (s.bucketAt i j) (t.bucketAt i j) := by
  have guesses : sum.numGuesses = s.numGuesses := congrArg B.guessGen length
  have guesses' : t.numGuesses = s.numGuesses := congrArg B.guessGen same.1.symm
  have columns' : t.numBuckets = s.numBuckets := congrArg B.bucketGen same.1.symm
  have left := s.bucketAt_get hi hj
  have right := t.bucketAt_get (columns'.symm ▸ hi) (guesses'.symm ▸ hj)
  rw [guesses'] at right
  rw [bucketAt, merged, guesses, List.getD_eq_getElem?_getD, List.getElem?_zipWith, left, right]
  rfl

end Operators

section Reachable

/-- The sketches of one length and seed that the operations of the class build.
An update is not checked against the length, so none is required here. -/
inductive Reachable (B : Build) (n : Nat) (seed : Int64) (hn : n < 2 ^ B.types.vecBits) :
    AGMSketch B → Prop where
  | fresh : Reachable B n seed hn (new B n seed hn)
  | update {s} (u : Update) : Reachable B n seed hn s → Reachable B n seed hn (s.update u)
  | batch {s t} (updates : List Update) : Reachable B n seed hn s →
      s.batchUpdate updates = some t → Reachable B n seed hn t
  | query {s t outcome} : Reachable B n seed hn s → s.query = some (t, outcome) →
      Reachable B n seed hn t
  | add {s t sum} : Reachable B n seed hn s → Reachable B n seed hn t →
      s.add t = some sum → Reachable B n seed hn sum
  | addAssign {s t sum} : Reachable B n seed hn s → Reachable B n seed hn t →
      s.addAssign t = some sum → Reachable B n seed hn sum
  | scale {s} (factor : Int64) : Reachable B n seed hn s → Reachable B n seed hn (s.scale factor)

/-- The invariant of the fingerprints: every one is reduced. -/
def Reduced (s : AGMSketch B) : Prop := ∀ b ∈ s.buckets, b.c < s.largePrime

theorem reduced_new (n : Nat) (seed : Int64) (hn : n < 2 ^ B.types.vecBits) :
    (new B n seed hn).Reduced := by
  intro b member
  have large := two_le_largePrime (new B n seed hn)
  rw [List.eq_of_mem_replicate member]
  exact Nat.lt_of_lt_of_le (by decide) large

variable {s t sum : AGMSketch B}

theorem Reduced.update (reduced : s.Reduced) (u : Update) : (s.update u).Reduced := by
  have large := s.two_le_largePrime
  apply Sweep.grid_forall (P := fun b : BucketBoruvka => b.c < s.largePrime) _ reduced
  intro i j bucket below
  cases contains B u.index (genBucketSeed B i s.seed) (B.guessNonzero j) with
  | true => exact accumulate_c_lt u _ (by omega) s.largePrime_lt below
  | false => exact below

theorem Reduced.batchUpdate (reduced : s.Reduced) {updates : List Update}
    (done : s.batchUpdate updates = some t) : t.Reduced := by
  have large := s.two_le_largePrime
  obtain ⟨length, -, -, filled⟩ := s.batchUpdate_frame done
  rw [Reduced, largePrime_unique length]
  apply Sweep.grid?_forall _ reduced filled
  intro i j before after below computed
  apply Run.run_invariant (P := fun b : BucketBoruvka => b.c < s.largePrime) _ below computed
  intro before u after below changed
  split at changed
  · obtain ⟨power, -, rfl⟩ := Option.map_eq_some_iff.mp changed
    exact accumulate_c_lt u power (by omega) s.largePrime_lt below
  · exact Option.some.inj changed ▸ below

theorem Reduced.query (reduced : s.Reduced) {outcome : Except QueryError Update}
    (done : s.query = some (t, outcome)) : t.Reduced := by
  obtain ⟨length, -, -, kept⟩ := s.query_frame done
  rw [Reduced, largePrime_unique length, kept]
  exact reduced

theorem reduced_of_merged (prime : sum.largePrime = s.largePrime)
    (merged : sum.buckets =
      List.zipWith (mergeBucket B.types s.largePrime) s.buckets t.buckets) : sum.Reduced := by
  have large := s.two_le_largePrime
  intro b member
  rw [merged, ← List.map_uncurry_zip_eq_zipWith] at member
  obtain ⟨pair, -, rfl⟩ := List.mem_map.mp member
  rw [prime]
  exact mergeBucket_c_lt (by omega) pair.1 pair.2

theorem reduced_scale (s : AGMSketch B) (factor : Int64) : (s.scale factor).Reduced := by
  have large := (s.scale factor).two_le_largePrime
  intro b member
  obtain ⟨x, -, rfl⟩ := List.mem_map.mp member
  exact Nat.mod_lt _ (Nat.lt_of_lt_of_le (by decide) large)

/-- Reachable sketches have the length and seed they were built with, and every
fingerprint is reduced. -/
theorem Reachable.invariant {n : Nat} {seed : Int64} {hn : n < 2 ^ B.types.vecBits}
    (reached : Reachable B n seed hn s) : s.n = n ∧ s.seed = seed ∧ s.Reduced := by
  induction reached with
  | fresh => exact ⟨rfl, rfl, reduced_new n seed hn⟩
  | update u _ ih => exact ⟨ih.1, ih.2.1, ih.2.2.update u⟩
  | batch updates _ done ih =>
    have reduced := ih.2.2.batchUpdate done
    obtain ⟨length, same, -, -⟩ := batchUpdate_frame _ done
    exact ⟨length.trans ih.1, same.trans ih.2.1, reduced⟩
  | query _ done ih =>
    obtain ⟨length, same, -, -⟩ := query_frame _ done
    exact ⟨length.trans ih.1, same.trans ih.2.1, ih.2.2.query done⟩
  | add _ _ done ih₁ ih₂ =>
    have same := compatible_of_eq (ih₁.1.trans ih₂.1.symm) (ih₁.2.1.trans ih₂.2.1.symm)
    obtain ⟨sum, found, length, seed, -, merged⟩ := add_spec same
    cases Option.some.inj (found.symm.trans done)
    exact ⟨length.trans ih₁.1, seed.trans ih₁.2.1, reduced_of_merged (largePrime_unique length) merged⟩
  | addAssign _ _ done ih₁ ih₂ =>
    have same := compatible_of_eq (ih₁.1.trans ih₂.1.symm) (ih₁.2.1.trans ih₂.2.1.symm)
    obtain ⟨sum, found, length, seed, -, merged⟩ := addAssign_spec same
    cases Option.some.inj (found.symm.trans done)
    exact ⟨length.trans ih₁.1, seed.trans ih₁.2.1, reduced_of_merged (largePrime_unique length) merged⟩
  | scale factor _ ih =>
    obtain ⟨length, seed, -, -⟩ := scale_spec _ factor
    exact ⟨length.trans ih.1, seed.trans ih.2.1, reduced_scale _ factor⟩

end Reachable

section Algebra

variable {n : Nat} {seed : Int64} {hn : n < 2 ^ B.types.vecBits} {x y z : AGMSketch B}

theorem Reachable.compatible (hx : Reachable B n seed hn x) (hy : Reachable B n seed hn y) :
    x.Compatible y := by
  obtain ⟨length, same, -⟩ := hx.invariant
  obtain ⟨length', same', -⟩ := hy.invariant
  exact compatible_of_eq (length.trans length'.symm) (same.trans same'.symm)

theorem Reachable.largePrime (hx : Reachable B n seed hn x) :
    x.largePrime = (new B n seed hn).largePrime := largePrime_unique hx.invariant.1

theorem Reachable.reduced (hx : Reachable B n seed hn x) :
    ∀ b ∈ x.buckets, b.c < (new B n seed hn).largePrime := hx.largePrime ▸ hx.invariant.2.2

/-- Addition of reachable sketches is commutative on buckets, and `+=` leaves
the buckets of `+`. -/
theorem add_comm_buckets (hx : Reachable B n seed hn x) (hy : Reachable B n seed hn y) :
    ∃ xy yx assigned, x.add y = some xy ∧ y.add x = some yx ∧ x.addAssign y = some assigned ∧
      xy.buckets = yx.buckets ∧ assigned.buckets = xy.buckets := by
  obtain ⟨xy, found, -, -, -, merged⟩ := add_spec (hx.compatible hy)
  obtain ⟨yx, found', -, -, -, merged'⟩ := add_spec (hy.compatible hx)
  obtain ⟨assigned, stored, -, -, -, kept⟩ := addAssign_spec (hx.compatible hy)
  refine ⟨xy, yx, assigned, found, found', stored, ?_, kept.trans merged.symm⟩
  rw [merged, merged', List.zipWith_comm, hx.largePrime, hy.largePrime]
  simp only [mergeBucket_comm]

theorem add_assoc_buckets (room : 2 * (new B n seed hn).largePrime < 2 ^ B.types.bucketBits)
    (hx : Reachable B n seed hn x) (hy : Reachable B n seed hn y)
    (hz : Reachable B n seed hn z) :
    ∃ xy yz left right, x.add y = some xy ∧ y.add z = some yz ∧ xy.add z = some left ∧
      x.add yz = some right ∧ left.buckets = right.buckets := by
  obtain ⟨xy, first, -, -, -, inner⟩ := add_spec (hx.compatible hy)
  obtain ⟨yz, second, -, -, -, inner'⟩ := add_spec (hy.compatible hz)
  have hxy := hx.add hy first
  have hyz := hy.add hz second
  obtain ⟨left, third, -, -, -, outer⟩ := add_spec (hxy.compatible hz)
  obtain ⟨right, fourth, -, -, -, outer'⟩ := add_spec (hx.compatible hyz)
  have large := two_le_largePrime (new B n seed hn)
  refine ⟨xy, yz, left, right, first, second, third, fourth, ?_⟩
  rw [outer, outer', inner, inner', hxy.largePrime, hx.largePrime, hy.largePrime]
  exact zipWith_mergeBucket_assoc (by omega) room hx.reduced hy.reduced hz.reduced

end Algebra

section Homomorphism

variable {n : Nat} {seed : Int64} {hn : n < 2 ^ B.types.vecBits}

theorem updateAll_compatible (first second : List Update) :
    ((new B n seed hn).updateAll first).Compatible ((new B n seed hn).updateAll second) := by
  obtain ⟨length, same, -, -⟩ := (new B n seed hn).updateAll_frame first
  obtain ⟨length', same', -, -⟩ := (new B n seed hn).updateAll_frame second
  exact compatible_of_eq (length.trans length'.symm) (same.trans same'.symm)

/-- Merged buckets of two update sequences, cell by cell. -/
theorem merged_updateAll {first second : List Update} {sum : AGMSketch B} (length : sum.n = n)
    (merged : sum.buckets =
      List.zipWith (mergeBucket B.types ((new B n seed hn).updateAll first).largePrime)
        ((new B n seed hn).updateAll first).buckets
        ((new B n seed hn).updateAll second).buckets)
    {i j : Nat} (hi : i < B.bucketGen n) (hj : j < B.guessGen n) :
    sum.bucketAt i j =
      mergeBucket B.types (new B n seed hn).largePrime
        (fill B.types (new B n seed hn).largePrime ((new B n seed hn).columnR i)
          ((new B n seed hn).accepted i j first))
        (fill B.types (new B n seed hn).largePrime ((new B n seed hn).columnR i)
          ((new B n seed hn).accepted i j second)) := by
  obtain ⟨length', -, prime, -⟩ := (new B n seed hn).updateAll_frame first
  have cell := merged_bucketAt (updateAll_compatible first second) (length.trans length'.symm) merged
    (i := i) (j := j) (by rwa [numBuckets, length']) (by rwa [numGuesses, length'])
  rw [cell, new_updateAll_fill seed hn first hi hj, new_updateAll_fill seed hn second hi hj, prime]

variable (hn2 : 2 ≤ n) (room : 2 * (new B n seed hn).largePrime < 2 ^ B.types.bucketBits)

include hn2 room

/-- Merging the sketches of two update sequences is sketching both. -/
theorem merged_eq_updateAll {first second : List Update} {sum : AGMSketch B} (length : sum.n = n)
    (merged : sum.buckets =
      List.zipWith (mergeBucket B.types ((new B n seed hn).updateAll first).largePrime)
        ((new B n seed hn).updateAll first).buckets
        ((new B n seed hn).updateAll second).buckets) :
    sum.buckets = ((new B n seed hn).updateAll (first ++ second)).buckets := by
  obtain ⟨length', -, -, -⟩ := (new B n seed hn).updateAll_frame (first ++ second)
  apply buckets_ext (length.trans length'.symm)
  intro i hi j hj
  rw [numBuckets, length] at hi
  rw [numGuesses, length] at hj
  have base := (new B n seed hn).columnR_lt i hn2
  rw [merged_updateAll length merged hi hj, new_updateAll_fill seed hn _ hi hj,
    mergeBucket_fill (two_le_largePrime _) (largePrime_lt _) base room]
  simp only [accepted, List.filter_append]

theorem merged_neg_updateAll {updates : List Update} (fits : ScaledFits (-1) updates)
    {sum : AGMSketch B} (length : sum.n = n)
    (merged : sum.buckets =
      List.zipWith (mergeBucket B.types ((new B n seed hn).updateAll updates).largePrime)
        ((new B n seed hn).updateAll updates).buckets
        ((new B n seed hn).updateAll (scaleUpdates (-1) updates)).buckets) :
    sum.buckets = (new B n seed hn).buckets := by
  apply buckets_ext length
  intro i hi j hj
  rw [numBuckets, length] at hi
  rw [numGuesses, length] at hj
  have base := (new B n seed hn).columnR_lt i hn2
  have kept : ScaledFits (-1) ((new B n seed hn).accepted i j updates) :=
    fun u member => fits u (List.mem_filter.mp member).1
  rw [merged_updateAll length merged hi hj, new_bucketAt, accepted, accepted, filter_scaleUpdates]
  exact mergeBucket_fill_neg (two_le_largePrime _) (largePrime_lt _) base room kept

end Homomorphism

/-- Sketch addition is a homomorphism from concatenation of update sequences,
while twice the prime is a `ubucket_t`. -/
theorem add_homomorphism (B : Build) {n : Nat} (hn2 : 2 ≤ n) (hn : n < 2 ^ B.types.vecBits)
    (seed : Int64) (room : 2 * (new B n seed hn).largePrime < 2 ^ B.types.bucketBits) :
    let s := new B n seed hn
    (∀ first second : List Update, ∃ sum assigned,
      (s.updateAll first).add (s.updateAll second) = some sum ∧
      (s.updateAll first).addAssign (s.updateAll second) = some assigned ∧
      sum.buckets = (s.updateAll (first ++ second)).buckets ∧
      assigned.buckets = (s.updateAll (first ++ second)).buckets) ∧
    (∀ x y, Reachable B n seed hn x → Reachable B n seed hn y →
      ∃ xy yx assigned, x.add y = some xy ∧ y.add x = some yx ∧ x.addAssign y = some assigned ∧
        xy.buckets = yx.buckets ∧ assigned.buckets = xy.buckets) ∧
    (∀ x y z, Reachable B n seed hn x → Reachable B n seed hn y → Reachable B n seed hn z →
      ∃ xy yz left right, x.add y = some xy ∧ y.add z = some yz ∧ xy.add z = some left ∧
        x.add yz = some right ∧ left.buckets = right.buckets) ∧
    ∀ updates : List Update, ScaledFits (-1) updates → ∃ sum,
      (s.updateAll updates).add (s.updateAll (scaleUpdates (-1) updates)) = some sum ∧
      ∀ b ∈ sum.buckets, b = {} := by
  refine ⟨?_, fun x y => add_comm_buckets, fun x y z => add_assoc_buckets room, ?_⟩
  · intro first second
    obtain ⟨length, -, -, -⟩ := (new B n seed hn).updateAll_frame first
    obtain ⟨sum, found, length', -, -, merged⟩ := add_spec (updateAll_compatible first second)
    obtain ⟨assigned, found', length'', -, -, merged'⟩ :=
      addAssign_spec (updateAll_compatible first second)
    exact ⟨sum, assigned, found, found',
      merged_eq_updateAll hn2 room (length'.trans length) merged,
      merged_eq_updateAll hn2 room (length''.trans length) merged'⟩
  · intro updates fits
    obtain ⟨length, -, -, -⟩ := (new B n seed hn).updateAll_frame updates
    obtain ⟨sum, found, length', -, -, merged⟩ :=
      add_spec (updateAll_compatible updates (scaleUpdates (-1) updates))
    refine ⟨sum, found, fun b member => ?_⟩
    rw [merged_neg_updateAll hn2 room fits (length'.trans length) merged] at member
    exact List.eq_of_mem_replicate member

theorem add_homomorphism_sample :
    ∃ sum, ((new (Build.sample .native) 2 0 (by decide)).updateAll [⟨0, 3⟩, ⟨1, -4⟩]).add
        ((new (Build.sample .native) 2 0 (by decide)).updateAll [⟨1, 5⟩]) = some sum ∧
      sum.buckets =
        ((new (Build.sample .native) 2 0 (by decide)).updateAll [⟨0, 3⟩, ⟨1, -4⟩, ⟨1, 5⟩]).buckets := by
  obtain ⟨sum, assigned, found, -, same, -⟩ :=
    (add_homomorphism (Build.sample .native) (n := 2) (by decide) (by decide) 0
      (by decide +kernel)).1 [⟨0, 3⟩, ⟨1, -4⟩] [⟨1, 5⟩]
  exact ⟨sum, found, same⟩

end AGMSketch
end Zeppelin.Sketch
