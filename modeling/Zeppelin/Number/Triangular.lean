import Mathlib.Algebra.Group.Nat.Even
import Mathlib.Algebra.Order.Ring.Nat
import Mathlib.Data.Nat.Choose.Basic
import Mathlib.Data.Nat.Sqrt
import Mathlib.Tactic.Linarith
import Mathlib.Tactic.Ring

/-! Triangular numbers. Between two of them in turn there is room for one pair
with a given larger entry, so a number is a pair of entries in exactly one way,
and an integer square root finds the larger one. -/
namespace Zeppelin.Number

def triangle (n : Nat) : Nat := n * (n - 1) / 2

theorem triangle_succ (n : Nat) : triangle (n + 1) = triangle n + n := Nat.triangle_succ n

theorem two_mul_triangle (n : Nat) : 2 * triangle n = n * (n - 1) :=
  Nat.two_mul_div_two_of_even (Nat.even_mul_pred_self n)

theorem triangle_mono : Monotone triangle := by
  apply monotone_nat_of_le_succ
  intro n
  rw [triangle_succ]
  exact Nat.le_add_right _ n

/-- The even one of two consecutive factors is halved before they are multiplied. -/
theorem triangle_of_even {n : Nat} (even : n % 2 = 0) : n / 2 * (n - 1) = triangle n := by
  rw [triangle, ← Nat.div_mul_right_comm (Nat.dvd_of_mod_eq_zero even)]

theorem triangle_of_odd {n : Nat} (odd : n % 2 = 1) : n * ((n - 1) / 2) = triangle n := by
  have even : 2 ∣ n - 1 := by omega
  rw [triangle, Nat.mul_div_assoc n even]

/-- A number has one row only. -/
theorem row_unique {j j' k : Nat} (low : triangle j ≤ k) (high : k < triangle (j + 1))
    (low' : triangle j' ≤ k) (high' : k < triangle (j' + 1)) : j = j' := by
  rcases Nat.lt_trichotomy j j' with less | same | more
  · have rows := triangle_mono (show j + 1 ≤ j' from less)
    omega
  · exact same
  · have rows := triangle_mono (show j' + 1 ≤ j from more)
    omega

theorem add_triangle_inj {i j i' j' : Nat} (order : i < j) (order' : i' < j')
    (same : i + triangle j = i' + triangle j') : i = i' ∧ j = j' := by
  have next := triangle_succ j
  have next' := triangle_succ j'
  have row : j = j' := row_unique (k := i + triangle j) (by omega) (by omega) (by omega) (by omega)
  subst row
  exact ⟨by omega, rfl⟩

/-- The row of a number. -/
def triangleRoot (k : Nat) : Nat := (Nat.sqrt (8 * k + 1) + 1) / 2

/-- Eight triangles and one are an odd square. -/
theorem eight_triangle_succ (n : Nat) : 8 * triangle (n + 1) + 1 = (2 * n + 1) * (2 * n + 1) := by
  have double := two_mul_triangle (n + 1)
  rw [Nat.add_sub_cancel] at double
  calc 8 * triangle (n + 1) + 1 = 4 * (2 * triangle (n + 1)) + 1 := by ring
    _ = (2 * n + 1) * (2 * n + 1) := by rw [double]; ring

theorem triangleRoot_pos (k : Nat) : 0 < triangleRoot k := by
  have root : 1 ≤ Nat.sqrt (8 * k + 1) := Nat.le_sqrt.mpr (by omega)
  rw [triangleRoot]
  omega

theorem triangle_root_le (k : Nat) : triangle (triangleRoot k) ≤ k := by
  obtain ⟨n, row⟩ : ∃ n, triangleRoot k = n + 1 := ⟨_, (Nat.sub_add_cancel (triangleRoot_pos k)).symm⟩
  have below : 2 * n + 1 ≤ Nat.sqrt (8 * k + 1) := by
    rw [triangleRoot] at row
    omega
  have square := Nat.le_sqrt.mp below
  rw [← eight_triangle_succ] at square
  rw [row]
  omega

theorem lt_triangle_root_succ (k : Nat) : k < triangle (triangleRoot k + 1) := by
  have above : Nat.sqrt (8 * k + 1) < 2 * triangleRoot k + 1 := by
    rw [triangleRoot]
    omega
  have square := Nat.sqrt_lt.mp above
  rw [← eight_triangle_succ] at square
  omega

theorem triangleRoot_add {i j : Nat} (order : i < j) : triangleRoot (i + triangle j) = j := by
  have next := triangle_succ j
  exact row_unique (triangle_root_le _) (lt_triangle_root_succ _) (by omega) (by omega)

end Zeppelin.Number
