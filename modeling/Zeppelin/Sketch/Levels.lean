import Zeppelin.Sketch.AGMSketch

/-! The sampling levels. `update`, `batch_update` and `query` pass `1 << j` to
`contains`, an `int` that is converted to `vec_t`. With 64-bit `vec_t` it is
`2 ^ j` up to level 30; at level 31 the shift reaches the sign bit, which the
conversion extends. -/
namespace Zeppelin.Sketch

open BucketBoruvka

section Shift

variable {B : Build}

theorem guessNonzero_eq_pow (wide : B.types = .wide) {j : Nat} (hj : j < 31) :
    B.guessNonzero j = 2 ^ j := by
  have table : ∀ j < 31, Config.vec .wide (1#32 <<< j).toInt = 2 ^ j := by decide
  rw [Build.guessNonzero, wide, B.shl1_eq j (by omega), table j hj]

/-- The sign of `1 << 31` fills the upper half of `vec_t`. -/
theorem guessNonzero_sign (wide : B.types = .wide) : B.guessNonzero 31 = 2 ^ 64 - 2 ^ 31 := by
  rw [Build.guessNonzero, wide, B.shl1_eq 31 (by decide)]
  decide

/-- Powers of two give nested samples, whatever the hash. -/
theorem contains_of_pow {k j : Nat} {bucketSeed : UInt64}
    (upper : contains B k bucketSeed (2 ^ (j + 1)) = true) :
    contains B k bucketSeed (2 ^ j) = true := by
  simp only [contains, decide_eq_true_eq] at upper ⊢
  have divides := Nat.dvd_of_mod_eq_zero upper
  exact Nat.mod_eq_zero_of_dvd ((Nat.pow_dvd_pow 2 (Nat.le_succ j)).trans divides)

end Shift

namespace AGMSketch

variable {B : Build} (s : AGMSketch B)

/-- Level `j` samples with probability `2 ^ -j`, level 0 contains every index,
and the levels of a column are nested. -/
structure GeometricLevels : Prop where
  powers : ∀ j < s.numGuesses, B.guessNonzero j = 2 ^ j
  bottom : ∀ i k, s.member i 0 k = true
  nested : ∀ i j k, j + 1 < s.numGuesses → s.member i (j + 1) k = true → s.member i j k = true

theorem geometricLevels_of_powers (powers : ∀ j < s.numGuesses, B.guessNonzero j = 2 ^ j) :
    s.GeometricLevels := by
  refine ⟨powers, s.member_zero, ?_⟩
  intro i j k hj upper
  rw [member, powers (j + 1) hj] at upper
  rw [member, powers j (by omega)]
  exact contains_of_pow upper

/-- With `floor(log2 n) + 2` levels in the 128-bit configuration, the levels are
geometric exactly for vectors shorter than `2 ^ 30`. -/
theorem geometricLevels_iff (wide : B.types = .wide) (levels : B.guessGen s.n = Nat.log2 s.n + 2) :
    s.GeometricLevels ↔ s.n < 2 ^ 30 := by
  have count : s.numGuesses = Nat.log2 s.n + 2 := levels
  constructor
  · intro geometric
    by_contra long
    have bits : 30 ≤ Nat.log2 s.n := (Nat.le_log2 (by omega)).mpr (by omega)
    have sign := geometric.powers 31 (by omega)
    rw [guessNonzero_sign wide] at sign
    exact absurd sign (by decide)
  · intro short
    have bits : Nat.log2 s.n ≤ 29 := by
      by_cases zero : s.n = 0
      · rw [zero]
        decide
      · have := (Nat.log2_lt zero).mpr short
        omega
    exact s.geometricLevels_of_powers fun j hj => guessNonzero_eq_pow wide (by omega)

theorem geometricLevels_sample : (new (Build.sample .wide) 1000 0 (by decide)).GeometricLevels :=
  (geometricLevels_iff _ rfl rfl).mpr (by decide)

/-- For `10 ^ 10` indices, level 31 is not sampled with `2 ^ 31`. -/
theorem geometricLevels_sign :
    ¬(new (Build.sample .wide) 10000000000 0 (by decide)).GeometricLevels := by
  intro geometric
  have sign := geometric.powers 31 (by decide)
  rw [guessNonzero_sign rfl] at sign
  exact absurd sign (by decide)

end AGMSketch
end Zeppelin.Sketch
