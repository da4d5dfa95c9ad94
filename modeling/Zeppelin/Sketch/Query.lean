import Zeppelin.Sketch.Linearity

/-! Completeness of `query`: a bucket that isolates one nonzero entry of the net
vector passes `is_good`, so the search ends at some good bucket unless a bucket
before it traps; a one-entry vector is decoded at the first bucket, and the zero
vector is reported as such. -/
namespace Zeppelin.Sketch

open PrimeGenerator BucketBoruvka

namespace AGMSketch

variable {B : Build} (s : AGMSketch B)

theorem cells_head {rows cols : Nat} (hr : 0 < rows) (hc : 0 < cols) :
    ∃ rest, cells rows cols = (0, 0) :: rest := by
  obtain ⟨r, rfl⟩ : ∃ r, rows = r + 1 := ⟨rows - 1, by omega⟩
  obtain ⟨c, rfl⟩ : ∃ c, cols = c + 1 := ⟨cols - 1, by omega⟩
  simp only [cells, List.range_succ_eq_map, List.flatMap_cons, List.map_cons, List.cons_append]
  exact ⟨_, rfl⟩

theorem goodAt_eq_none_iff (i j : Nat) :
    s.goodAt i j = none ↔ (s.bucketAt i j).Traps B.types := isGood_eq_none_iff ..

/-- Every bucket that traps comes after a good one in the order of the search. -/
def TrapsAfterGood (visited : List (Nat × Nat)) : Prop :=
  ∀ before cell after, visited = before ++ cell :: after →
    (s.bucketAt cell.1 cell.2).Traps B.types → ∃ good ∈ before, s.goodAt good.1 good.2 = some true

theorem trapsAfterGood_cons_of_good {cell : Nat × Nat} {rest : List (Nat × Nat)}
    (good : s.goodAt cell.1 cell.2 = some true) : s.TrapsAfterGood (cell :: rest) := by
  intro before other after split trap
  cases before with
  | nil =>
    obtain ⟨rfl, -⟩ := List.cons_eq_cons.mp split
    rw [(s.goodAt_eq_none_iff _ _).mpr trap] at good
    contradiction
  | cons first before =>
    obtain ⟨rfl, -⟩ := List.cons_eq_cons.mp split
    exact ⟨cell, List.mem_cons_self, good⟩

theorem trapsAfterGood_cons_of_bad {cell : Nat × Nat} {rest : List (Nat × Nat)}
    (bad : s.goodAt cell.1 cell.2 = some false) :
    s.TrapsAfterGood (cell :: rest) ↔ s.TrapsAfterGood rest := by
  constructor
  · intro late before other after split trap
    obtain ⟨good, member, found⟩ := late (cell :: before) other after (by rw [split]; rfl) trap
    rcases List.mem_cons.mp member with rfl | earlier
    · rw [bad] at found
      contradiction
    · exact ⟨good, earlier, found⟩
  · intro late before other after split trap
    cases before with
    | nil =>
      obtain ⟨rfl, -⟩ := List.cons_eq_cons.mp split
      rw [(s.goodAt_eq_none_iff _ _).mpr trap] at bad
      contradiction
    | cons first before =>
      obtain ⟨-, tail⟩ := List.cons_eq_cons.mp split
      obtain ⟨good, member, found⟩ := late before other after tail trap
      exact ⟨good, List.mem_cons_of_mem first member, found⟩

/-- A search returns when one of its cells is good and none traps before it. -/
theorem querySearch_ok_iff (visited : List (Nat × Nat)) (allBucketsZero : Bool) :
    (∃ u, s.querySearch visited allBucketsZero = some (.ok u)) ↔
      (∃ cell ∈ visited, s.goodAt cell.1 cell.2 = some true) ∧ s.TrapsAfterGood visited := by
  induction visited generalizing allBucketsZero with
  | nil => simp [querySearch]
  | cons cell rest ih =>
    rw [querySearch]
    split
    · rename_i trap
      constructor
      · rintro ⟨u, contrary⟩
        contradiction
      · rintro ⟨-, late⟩
        obtain ⟨good, member, -⟩ := late [] cell rest rfl ((s.goodAt_eq_none_iff _ _).mp trap)
        cases member
    · rename_i good
      exact ⟨fun _ => ⟨⟨cell, List.mem_cons_self, good⟩, s.trapsAfterGood_cons_of_good good⟩,
        fun _ => ⟨_, rfl⟩⟩
    · rename_i bad
      rw [ih, s.trapsAfterGood_cons_of_bad bad]
      simp [bad]

theorem isGood_zero (n p : Nat) (bucketSeed : UInt64) (r guess : Nat) :
    isGood B {} n p bucketSeed r guess = some false := by
  have quiet : ¬Traps B.types {} := by
    rintro ⟨total, -⟩
    contradiction
  simp only [isGood, if_neg quiet, ne_eq, not_true_eq_false, decide_false, Bool.false_and]

/-- A search over zero buckets only reports that all buckets are zero. -/
theorem querySearch_of_zero {visited : List (Nat × Nat)}
    (zero : ∀ cell ∈ visited, s.bucketAt cell.1 cell.2 = {}) :
    s.querySearch visited true = some (.error .allBucketsZero) := by
  induction visited with
  | nil => rfl
  | cons cell rest ih =>
    have empty := zero cell (by simp)
    have bad : s.goodAt cell.1 cell.2 = some false := by
      simp only [goodAt, empty]
      exact isGood_zero ..
    rw [querySearch, bad, empty]
    simpa using ih (fun c hc => zero c (by simp [hc]))

/-- A sketch that is not marked searches when it is queried. -/
theorem queryOutcome_fresh (unmarked : s.alreadyQuered = false) :
    s.queryOutcome = s.querySearch (cells s.numBuckets s.numGuesses) true := by
  rw [queryOutcome, query, unmarked]
  simp [Function.comp_def]

theorem trapsAfterGood_of_noTraps (quiet : s.NoTraps) :
    s.TrapsAfterGood (cells s.numBuckets s.numGuesses) := by
  intro before cell after split trap
  obtain ⟨hi, hj⟩ := mem_cells.mp (show (cell.1, cell.2) ∈ cells s.numBuckets s.numGuesses by
    rw [split]
    simp)
  exact absurd trap (quiet cell.1 hi cell.2 hj)

section Runs

variable {n : Nat} {hn : n < 2 ^ B.types.vecBits} {seed : Int64} {updates : List Update}

/-- Bucket `(i, j)` contains index `k` and no other index with a nonzero entry. -/
def Isolates (s : AGMSketch B) (updates : List Update) (i j k : Nat) : Prop :=
  s.member i j k = true ∧ netEntry updates k ≠ 0 ∧
    ∀ other, s.member i j other = true → netEntry updates other ≠ 0 → other = k

/-- The contents of a bucket that isolates an entry are those of that entry. -/
theorem isolated_bucket (hn2 : 2 ≤ n) (indices : ∀ u ∈ updates, u.index < n)
    (fits : (new B n seed hn).SumsFitAll updates) {i j k : Nat} (hi : i < B.bucketGen n)
    (hj : j < B.guessGen n) (isolated : (new B n seed hn).Isolates updates i j k) :
    let bucket := ((new B n seed hn).updateAll updates).bucketAt i j
    bucket.a = netEntry updates k ∧ bucket.b = netEntry updates k * ((k : Int) + 1) ∧
      (bucket.c : Int) = netEntry updates k * ((new B n seed hn).columnR i : Int) ^ (k + 1) %
        (new B n seed hn).largePrime := by
  obtain ⟨inside, -, only⟩ := isolated
  have held := bucketAt_summarizes hn2 indices fits hi hj
  have here : Linear.entry (history ((new B n seed hn).accepted i j updates)) k =
      netEntry updates k := by rw [accepted_history, if_pos inside]
  have elsewhere : ∀ other, other ≠ k →
      Linear.entry (history ((new B n seed hn).accepted i j updates)) other = 0 := by
    intro other different
    rw [accepted_history]
    split
    · by_contra nonzero
      exact different (only other ‹_› nonzero)
    · rfl
  have weighed := fun weight : Nat → Int => Linear.weigh_single weight elsewhere
  simp only [weigh_history, here] at weighed
  refine ⟨?_, ?_, ?_⟩
  · have total := weighed (fun _ => 1)
    simp only [mul_one] at total
    exact held.total.trans total
  · exact held.position.trans (weighed fun k => (k : Int) + 1)
  · rw [held.fingerprint, weighed fun k => ((new B n seed hn).columnR i : Int) ^ (k + 1)]

/-- A bucket that isolates an entry passes `is_good`. -/
theorem isolated_good (hn2 : 2 ≤ n) (indices : ∀ u ∈ updates, u.index < n)
    (fits : (new B n seed hn).SumsFitAll updates) (small : ∀ k, |netEntry updates k| < 2 ^ 62)
    {i j k : Nat} (hi : i < B.bucketGen n) (hj : j < B.guessGen n)
    (isolated : (new B n seed hn).Isolates updates i j k) :
    ((new B n seed hn).updateAll updates).goodAt i j = some true := by
  obtain ⟨total, position, fingerprint⟩ := isolated_bucket hn2 indices fits hi hj isolated
  have held := bucketAt_summarizes hn2 indices fits hi hj
  obtain ⟨length, seeds, prime, -⟩ := (new B n seed hn).updateAll_frame updates
  have hk := netEntry_index_lt indices isolated.2.1
  rw [goodAt]
  simp only [length, seeds, prime]
  apply (isGood_iff hn (two_le_largePrime (new B n seed hn)) (largePrime_lt (new B n seed hn))
    (genR_lt (new B n seed hn) (genBucketSeed B i seed) hn2) held.reduced
    (by rw [total]; exact (small k).le)).mpr
  refine ⟨by rw [total]; exact isolated.2.1, k + 1, by omega, hk, ?_, isolated.1, ?_⟩
  · rw [position, total]
    push_cast
    rfl
  · rw [fingerprint, total]
    exact Int.mod_modEq _ _

theorem netEntry_long {k : Nat} (small : |netEntry updates k| < 2 ^ 62) :
    (Int64.ofInt (netEntry updates k)).toInt = netEntry updates k := by
  obtain ⟨low, high⟩ := abs_lt.mp small
  exact Int64.toInt_ofInt_of_le (by omega) (by omega)

/-- What `query` reports for an isolating bucket is the isolated entry. -/
theorem isolated_decode (hn2 : 2 ≤ n) (indices : ∀ u ∈ updates, u.index < n)
    (fits : (new B n seed hn).SumsFitAll updates) {i j k : Nat} (hi : i < B.bucketGen n)
    (hj : j < B.guessGen n) (isolated : (new B n seed hn).Isolates updates i j k) :
    ((new B n seed hn).updateAll updates).decodeAt i j =
      ⟨k, Int64.ofInt (netEntry updates k)⟩ := by
  obtain ⟨total, position, -⟩ := isolated_bucket hn2 indices fits hi hj isolated
  have hk := netEntry_index_lt indices isolated.2.1
  have quotient : (netEntry updates k * ((k : Int) + 1)).tdiv (netEntry updates k) = (k : Int) + 1 :=
    Int.mul_tdiv_cancel_left _ isolated.2.1
  rw [decodeAt, decodedIndex, total, position, quotient, add_sub_cancel_right,
    Config.vec_eq_self (by omega)]

theorem zero_bucket (hn2 : 2 ≤ n) (indices : ∀ u ∈ updates, u.index < n)
    (zero : ∀ k, netEntry updates k = 0) {i j : Nat} (hi : i < B.bucketGen n)
    (hj : j < B.guessGen n) : ((new B n seed hn).updateAll updates).bucketAt i j = {} := by
  have same : ∀ k, Linear.entry (history ((new B n seed hn).accepted i j updates)) k =
      Linear.entry [] k := by
    intro k
    rw [accepted_history, zero]
    exact ite_self 0
  rw [new_updateAll_bucketAt seed hn hn2 indices hi hj, ofHistory_congr same]
  exact encode_zero B.types _

/-- The first query of a one-entry vector returns the entry, from the first bucket. -/
theorem query_single (hn2 : 2 ≤ n) (indices : ∀ u ∈ updates, u.index < n)
    (fits : (new B n seed hn).SumsFitAll updates) (small : ∀ k, |netEntry updates k| < 2 ^ 62)
    {k : Nat} (single : ∀ other, netEntry updates other ≠ 0 ↔ other = k) :
    ((new B n seed hn).updateAll updates).queryOutcome =
      some (.ok ⟨k, Int64.ofInt (netEntry updates k)⟩) := by
  have isolated : (new B n seed hn).Isolates updates 0 0 k :=
    ⟨member_zero _ 0 k, (single k).mpr rfl, fun other _ nonzero => (single other).mp nonzero⟩
  obtain ⟨length, -, -, mark⟩ := (new B n seed hn).updateAll_frame updates
  have hi := B.bucketGen_pos n
  have hj := B.guessGen_pos n
  obtain ⟨rest, start⟩ := cells_head hi hj
  rw [queryOutcome_fresh _ mark, numBuckets, numGuesses, length]
  change querySearch _ (cells (B.bucketGen n) (B.guessGen n)) true = _
  rw [start, querySearch, isolated_good hn2 indices fits small hi hj isolated,
    isolated_decode hn2 indices fits hi hj isolated]

/-- The first query of the zero vector reports it. -/
theorem query_zero (hn2 : 2 ≤ n) (indices : ∀ u ∈ updates, u.index < n)
    (zero : ∀ k, netEntry updates k = 0) :
    ((new B n seed hn).updateAll updates).queryOutcome = some (.error .allBucketsZero) := by
  obtain ⟨length, -, -, mark⟩ := (new B n seed hn).updateAll_frame updates
  rw [queryOutcome_fresh _ mark, numBuckets, numGuesses, length]
  apply querySearch_of_zero
  rintro ⟨i, j⟩ listed
  obtain ⟨hi, hj⟩ := mem_cells.mp listed
  exact zero_bucket hn2 indices zero hi hj

end Runs

/-- The first query of a sketch filled by updates decodes as it should exactly when
no bucket traps before the first good one, or no bucket isolates an entry. -/
theorem query_complete_iff (B : Build) {n : Nat} (hn2 : 2 ≤ n) (hn : n < 2 ^ B.types.vecBits)
    (seed : Int64) {updates : List Update} (indices : ∀ u ∈ updates, u.index < n)
    (fits : (new B n seed hn).SumsFitAll updates) (small : ∀ k, |netEntry updates k| < 2 ^ 62) :
    let s := (new B n seed hn).updateAll updates
    ((∀ i < B.bucketGen n, ∀ j < B.guessGen n, ∀ k, (new B n seed hn).Isolates updates i j k →
        s.goodAt i j = some true ∧ ∃ u, s.queryOutcome = some (.ok u)) ∧
      (∀ k, (∀ other, netEntry updates other ≠ 0 ↔ other = k) →
        ∃ u, s.queryOutcome = some (.ok u) ∧ u.index = k ∧ u.delta.toInt = netEntry updates k) ∧
      ((∀ k, netEntry updates k = 0) → s.queryOutcome = some (.error .allBucketsZero))) ↔
    ((∃ i < B.bucketGen n, ∃ j < B.guessGen n, ∃ k, (new B n seed hn).Isolates updates i j k) →
      s.TrapsAfterGood (cells (B.bucketGen n) (B.guessGen n))) := by
  intro s
  obtain ⟨length, -, -, mark⟩ := (new B n seed hn).updateAll_frame updates
  have columns : s.numBuckets = B.bucketGen n := congrArg B.bucketGen length
  have levels : s.numGuesses = B.guessGen n := congrArg B.guessGen length
  have first := s.queryOutcome_fresh mark
  rw [columns, levels] at first
  constructor
  · rintro ⟨decodes, -⟩ ⟨i, hi, j, hj, k, isolated⟩
    obtain ⟨-, returns⟩ := decodes i hi j hj k isolated
    rw [first] at returns
    exact ((s.querySearch_ok_iff _ _).mp returns).2
  · intro late
    refine ⟨?_, ?_, query_zero hn2 indices⟩
    · intro i hi j hj k isolated
      have good := isolated_good hn2 indices fits small hi hj isolated
      rw [first]
      exact ⟨good, (s.querySearch_ok_iff _ _).mpr
        ⟨⟨(i, j), mem_cells.mpr ⟨hi, hj⟩, good⟩, late ⟨i, hi, j, hj, k, isolated⟩⟩⟩
    · intro k single
      exact ⟨_, query_single hn2 indices fits small single, rfl, netEntry_long (small k)⟩

/-- Index 0 cancels and index 2 keeps the entry 5, which is what is returned. -/
theorem query_complete_sample :
    ∃ u, ((new (Build.sample .native) 3 7 (by decide)).updateAll
        [⟨2, 5⟩, ⟨0, -4⟩, ⟨0, 4⟩]).queryOutcome = some (.ok u) ∧
      u.index = 2 ∧ u.delta.toInt = 5 := by
  have indices : ∀ u ∈ ([⟨2, 5⟩, ⟨0, -4⟩, ⟨0, 4⟩] : List Update), u.index < 3 := by decide
  have small : ∀ k, |netEntry [⟨2, 5⟩, ⟨0, -4⟩, ⟨0, 4⟩] k| < 2 ^ 62 :=
    forall_netEntry (P := fun _ x => |x| < 2 ^ 62) indices (fun _ _ => by decide) (by decide)
  have quiet : ((new (Build.sample .native) 3 7 (by decide)).updateAll
      [⟨2, 5⟩, ⟨0, -4⟩, ⟨0, 4⟩]).NoTraps := by decide +kernel
  exact ((query_complete_iff (Build.sample .native) (by decide) (by decide) 7 indices
    (by decide +kernel) small).mpr fun _ => trapsAfterGood_of_noTraps _ quiet).2.1 2
      (forall_netEntry (P := fun k x => x ≠ 0 ↔ k = 2) indices
        (fun k beyond => by simp only [ne_eq, not_true_eq_false, false_iff]; omega) (by decide))

/-- Together these give the total -1 and the least `bucket_t` as position. -/
def trapUpdates : List Update :=
  [⟨0, 1417624576693539400⟩, ⟨6, -700000000000000000⟩, ⟨7, -717624576693539401⟩]

/-- Bucket `(0, 1)` isolates index 7, but the query traps at bucket `(0, 0)`. -/
theorem query_complete_trap :
    let fresh := new (Build.sample .native) 8 0 (by decide)
    (∀ u ∈ trapUpdates, u.index < 8) ∧ fresh.SumsFitAll trapUpdates ∧
      (∀ k, |netEntry trapUpdates k| < 2 ^ 62) ∧ fresh.Isolates trapUpdates 0 1 7 ∧
      (fresh.updateAll trapUpdates).queryOutcome = none := by
  have indices : ∀ u ∈ trapUpdates, u.index < 8 := by decide
  refine ⟨indices, by decide +kernel, ?_, ⟨by decide +kernel, by decide, ?_⟩, by decide +kernel⟩
  · exact forall_netEntry (P := fun _ x => |x| < 2 ^ 62) indices (fun _ _ => by decide) (by decide)
  · intro other
    exact forall_netEntry (P := fun k x => (new (Build.sample .native) 8 0 (by decide)).member 0 1 k
      = true → x ≠ 0 → k = 7) indices (fun _ _ _ contrary => absurd rfl contrary)
      (by decide +kernel) other

end AGMSketch
end Zeppelin.Sketch
