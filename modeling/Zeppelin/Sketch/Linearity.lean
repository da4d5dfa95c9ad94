import Zeppelin.Sketch.AGMSketch

/-! The linear-sketch invariant. While the running sums stay inside `bucket_t`,
every bucket holds the exact sums over the updates it contains, so two runs with
the same net vector leave the same buckets. The fingerprint needs no such bound:
its intermediates never leave `bucket_prod_t`. -/
namespace Zeppelin.Sketch

open PrimeGenerator BucketBoruvka

/-- Every product `delta * (index + 1)` and every running sum of the deltas and
of these products is a `bucket_t`. -/
structure SumsFit (T : Config) (updates : List Update) : Prop where
  product : ∀ u ∈ updates, T.FitsBucket (u.delta.toInt * ((u.index : Int) + 1))
  total : ∀ m ≤ updates.length, T.FitsBucket ((updates.take m).map fun u => u.delta.toInt).sum
  position : ∀ m ≤ updates.length,
    T.FitsBucket ((updates.take m).map fun u => u.delta.toInt * ((u.index : Int) + 1)).sum

/-- The bucket holds the two exact sums and the reduced fingerprint of a list of
updates with base `r`. -/
structure Summarizes (p r : Nat) (updates : List Update) (bucket : BucketBoruvka) : Prop where
  total : bucket.a = (updates.map fun u => u.delta.toInt).sum
  position : bucket.b = (updates.map fun u => u.delta.toInt * ((u.index : Int) + 1)).sum
  fingerprint : (bucket.c : Int) =
    (updates.map fun u => u.delta.toInt * (r : Int) ^ (u.index + 1)).sum % p
  reduced : bucket.c < p

theorem weigh_history (weight : Nat → Int) (updates : List Update) :
    Linear.weigh weight (history updates) =
      (updates.map fun u => u.delta.toInt * weight u.index).sum := by
  simp only [Linear.weigh, history, List.map_map, Function.comp_def]

instance (T : Config) (updates : List Update) : Decidable (SumsFit T updates) :=
  decidable_of_iff
    ((∀ u ∈ updates, T.FitsBucket (u.delta.toInt * ((u.index : Int) + 1))) ∧
      (∀ m ≤ updates.length, T.FitsBucket ((updates.take m).map fun u => u.delta.toInt).sum) ∧
      ∀ m ≤ updates.length,
        T.FitsBucket ((updates.take m).map fun u => u.delta.toInt * ((u.index : Int) + 1)).sum)
    ⟨fun h => ⟨h.1, h.2.1, h.2.2⟩, fun h => ⟨h.product, h.total, h.position⟩⟩

theorem ofHistory_summarizes {T : Config} {p r : Nat} {updates : List Update} (positive : 0 < p)
    (fits : SumsFit T updates) : Summarizes p r updates (ofHistory T p r (history updates)) := by
  have total := fits.total updates.length (le_refl _)
  have position := fits.position updates.length (le_refl _)
  rw [List.take_length] at total position
  refine ⟨?_, ?_, ?_, encode_c_lt _ _ _ positive⟩
  · simp only [ofHistory, encode, weigh_history, mul_one]
    exact Config.bucket_eq_self total
  · simp only [ofHistory, encode, weigh_history]
    exact Config.bucket_eq_self position
  · rw [ofHistory, encode_c _ _ _ positive, weigh_history]

namespace AGMSketch

variable {B : Build}

/-- The bound of the invariant, for the updates of each bucket. -/
def SumsFitAll (s : AGMSketch B) (updates : List Update) : Prop :=
  ∀ i < s.numBuckets, ∀ j < s.numGuesses, SumsFit B.types (s.accepted i j updates)

instance (s : AGMSketch B) (updates : List Update) : Decidable (s.SumsFitAll updates) :=
  inferInstanceAs (Decidable (∀ i < s.numBuckets, ∀ j < s.numGuesses,
    SumsFit B.types (s.accepted i j updates)))

theorem accepted_history (s : AGMSketch B) (i j : Nat) (updates : List Update) (k : Nat) :
    Linear.entry (history (s.accepted i j updates)) k =
      if s.member i j k then netEntry updates k else 0 := by
  rw [accepted, history_filter (s.member i j), Linear.entry_filter, netEntry]

variable {n : Nat} {hn : n < 2 ^ B.types.vecBits} {seed : Int64} {updates : List Update}

theorem bucketAt_summarizes (hn2 : 2 ≤ n) (indices : ∀ u ∈ updates, u.index < n)
    (fits : (new B n seed hn).SumsFitAll updates) {i j : Nat} (hi : i < B.bucketGen n)
    (hj : j < B.guessGen n) :
    Summarizes (new B n seed hn).largePrime ((new B n seed hn).columnR i)
      ((new B n seed hn).accepted i j updates)
      (((new B n seed hn).updateAll updates).bucketAt i j) := by
  rw [new_updateAll_bucketAt seed hn hn2 indices hi hj]
  have large := two_le_largePrime (new B n seed hn)
  exact ofHistory_summarizes (by omega) (fits i hi j hj)

theorem bucketAt_c_lt (hn2 : 2 ≤ n) (indices : ∀ u ∈ updates, u.index < n) {i j : Nat}
    (hi : i < B.bucketGen n) (hj : j < B.guessGen n) :
    (((new B n seed hn).updateAll updates).bucketAt i j).c < (new B n seed hn).largePrime := by
  rw [new_updateAll_bucketAt seed hn hn2 indices hi hj]
  have large := two_le_largePrime (new B n seed hn)
  exact encode_c_lt _ _ _ (by omega)

/-- Runs with the same net vector leave the same buckets. -/
theorem updateAll_congr (hn2 : 2 ≤ n) {others : List Update}
    (indices : ∀ u ∈ updates, u.index < n) (indices' : ∀ u ∈ others, u.index < n)
    (same : ∀ k, netEntry updates k = netEntry others k) :
    ((new B n seed hn).updateAll updates).buckets = ((new B n seed hn).updateAll others).buckets := by
  apply buckets_ext
  · rw [(updateAll_frame _ updates).1, (updateAll_frame _ others).1]
  · intro i hi j hj
    rw [numBuckets, (updateAll_frame _ updates).1] at hi
    rw [numGuesses, (updateAll_frame _ updates).1] at hj
    rw [new_updateAll_bucketAt seed hn hn2 indices hi hj,
      new_updateAll_bucketAt seed hn hn2 indices' hi hj]
    apply ofHistory_congr
    intro k
    rw [accepted_history, accepted_history, same]

/-- The intermediates of every update of a run stay inside `bucket_prod_t`. -/
theorem updateAll_prod_fits (hn2 : 2 ≤ n) {before : List Update}
    (indices : ∀ u ∈ before, u.index < n) (u : Update) {i j : Nat} (hi : i < B.bucketGen n)
    (hj : j < B.guessGen n) :
    ∀ x ∈ (((new B n seed hn).updateAll before).bucketAt i j).prodIntermediates u
        (new B n seed hn).largePrime
        (powermod B.types ((new B n seed hn).columnR i) (u.index + 1) (new B n seed hn).largePrime),
      B.types.FitsProd x := by
  have below : (((new B n seed hn).updateAll before).bucketAt i j).c <
      (new B n seed hn).largePrime := bucketAt_c_lt hn2 indices hi hj
  have prime := largePrime_lt (new B n seed hn)
  have large := two_le_largePrime (new B n seed hn)
  apply prodIntermediates_fit u (below.trans prime) (by omega) prime
  exact (powermod_lt _ _ large prime).trans prime

/-- The linear-sketch invariant over whole runs of a fresh sketch, for both
integer configurations. -/
theorem linear_sketch (B : Build) {n : Nat} (hn2 : 2 ≤ n) (hn : n < 2 ^ B.types.vecBits)
    (seed : Int64) {updates : List Update} (indices : ∀ u ∈ updates, u.index < n)
    (fits : (new B n seed hn).SumsFitAll updates) :
    let s := new B n seed hn
    (∀ i < B.bucketGen n, ∀ j < B.guessGen n,
      Summarizes s.largePrime (s.columnR i) (s.accepted i j updates)
        ((s.updateAll updates).bucketAt i j) ∧
      ∀ before u after, updates = before ++ u :: after → s.member i j u.index = true →
        ∀ x ∈ ((s.updateAll before).bucketAt i j).prodIntermediates u s.largePrime
          (powermod B.types (s.columnR i) (u.index + 1) s.largePrime), B.types.FitsProd x) ∧
    ∀ others : List Update, (∀ u ∈ others, u.index < n) →
      (∀ k, netEntry updates k = netEntry others k) →
      (s.updateAll updates).buckets = (s.updateAll others).buckets := by
  refine ⟨?_, fun others indices' same => updateAll_congr hn2 indices indices' same⟩
  intro i hi j hj
  refine ⟨bucketAt_summarizes hn2 indices fits hi hj, ?_⟩
  intro before u after split _
  exact updateAll_prod_fits hn2 (fun v hv => indices v (by simp [split, hv])) u hi hj

theorem linear_sketch_sample :
    ((new (Build.sample .native) 3 7 (by decide)).updateAll
      [⟨2, 5⟩, ⟨0, -4⟩, ⟨2, -6⟩]).buckets =
    ((new (Build.sample .native) 3 7 (by decide)).updateAll
      [⟨2, -1⟩, ⟨0, -4⟩]).buckets :=
  (linear_sketch (Build.sample .native) (by decide) (by decide) 7 (by decide)
    (by decide +kernel)).2 [⟨2, -1⟩, ⟨0, -4⟩] (by decide)
    (forall_netEntry (P := fun k x => x = netEntry [⟨2, -1⟩, ⟨0, -4⟩] k) (n := 3) (by decide)
      (fun k beyond => (forall_netEntry (P := fun k x => 3 ≤ k → 0 = x) (n := 3) (by decide)
        (fun _ _ _ => rfl) (fun k below large => by omega) k) beyond) (by decide))

end AGMSketch
end Zeppelin.Sketch
