import Zeppelin.Machine.Word

/-! Rounding of whole numbers to 53 significant bits. A number times a power of
two is such a whole number, so a product of two doubles is compared with a whole
number after both are scaled. -/
namespace Zeppelin.Word

/-- The distance of neighbouring doubles at a number. -/
def ulp (n : Nat) : Nat := 2 ^ (n.log2 - 52)

theorem ulp_pos (n : Nat) : 0 < ulp n := Nat.two_pow_pos _

theorem toDouble_eq (n : Nat) :
    toDouble n = if ulp n < 2 * (n % ulp n) ∨ 2 * (n % ulp n) = ulp n ∧ n / ulp n % 2 = 1
      then (n / ulp n + 1) * ulp n else n / ulp n * ulp n := rfl

theorem lt_ulp_mul (n : Nat) : n < ulp n * 2 ^ 53 := by
  have exponent : n.log2 + 1 ≤ n.log2 - 52 + 53 := by omega
  calc n < 2 ^ (n.log2 + 1) := Nat.lt_log2_self
    _ ≤ 2 ^ (n.log2 - 52 + 53) := Nat.pow_le_pow_right (by decide) exponent
    _ = ulp n * 2 ^ 53 := Nat.pow_add ..

theorem ulp_dvd_two_pow {n e : Nat} (small : n < 2 ^ (53 + e)) : ulp n ∣ 2 ^ e := by
  apply Nat.pow_dvd_pow
  by_cases zero : n = 0
  · rw [zero, Nat.log2_zero]
    omega
  · have := (Nat.log2_lt zero).mpr small
    omega

theorem toDouble_cases (n : Nat) :
    (toDouble n = n / ulp n * ulp n ∧ 2 * (n % ulp n) ≤ ulp n) ∨
      (toDouble n = (n / ulp n + 1) * ulp n ∧ ulp n ≤ 2 * (n % ulp n)) := by
  rw [toDouble_eq]
  split
  next up => exact .inr ⟨rfl, by omega⟩
  next down => exact .inl ⟨rfl, by omega⟩

/-- Half a unit is the most that rounding changes. -/
theorem toDouble_near (n : Nat) :
    2 * n ≤ 2 * toDouble n + ulp n ∧ 2 * toDouble n ≤ 2 * n + ulp n := by
  have parts := Nat.div_add_mod' n (ulp n)
  rcases toDouble_cases n with ⟨same, low⟩ | ⟨same, high⟩
  · rw [same]
    omega
  · have less := Nat.mod_lt n (ulp_pos n)
    rw [same, Nat.add_one_mul (n / ulp n)]
    omega

/-- Rounding does not pass a double from above. -/
theorem le_toDouble {n m : Nat} (dvd : ulp n ∣ m) (below : m ≤ n) : m ≤ toDouble n := by
  obtain ⟨q, rfl⟩ := dvd
  have whole : q ≤ n / ulp n := by
    rw [Nat.le_div_iff_mul_le (ulp_pos n), Nat.mul_comm]
    exact below
  have scaled := Nat.mul_le_mul_right (ulp n) whole
  rw [Nat.mul_comm]
  rcases toDouble_cases n with ⟨same, -⟩ | ⟨same, -⟩
  · rwa [same]
  · rw [same, Nat.add_one_mul (n / ulp n)]
    omega

/-- A number less than half a unit above a double is rounded to it or below. -/
theorem toDouble_le {n m : Nat} (dvd : ulp n ∣ m) (near : 2 * n < 2 * m + ulp n) :
    toDouble n ≤ m := by
  obtain ⟨q, rfl⟩ := dvd
  have parts := Nat.div_add_mod' n (ulp n)
  rw [Nat.mul_comm (ulp n) q] at near ⊢
  rcases Nat.lt_or_ge (n / ulp n) q with less | above
  · have scaled := Nat.mul_le_mul_right (ulp n) (Nat.succ_le_of_lt less)
    rw [Nat.succ_mul] at scaled
    rcases toDouble_cases n with ⟨same, -⟩ | ⟨same, -⟩
    · rw [same]
      omega
    · rwa [same, Nat.add_one_mul (n / ulp n)]
  · have scaled := Nat.mul_le_mul_right (ulp n) above
    have same : n / ulp n = q := by
      by_contra other
      have next : q + 1 ≤ n / ulp n := by omega
      have scaled := Nat.mul_le_mul_right (ulp n) next
      rw [Nat.add_one_mul] at scaled
      have positive := ulp_pos n
      omega
    rcases toDouble_cases n with ⟨down, -⟩ | ⟨up, high⟩
    · rw [down, same]
    · rw [same] at parts
      omega

end Zeppelin.Word
