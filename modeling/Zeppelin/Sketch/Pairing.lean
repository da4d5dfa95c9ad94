import Zeppelin.Machine.Word
import Zeppelin.Number.Triangular

/-! The pairing functions of `util.cpp`. Each multiplies two consecutive numbers
after the even one was halved, and guards the product and the last sum against
`unsigned long long`. `none` stands for a division by zero. -/
namespace Zeppelin.Sketch.Pairing

open Number

/-- `std::overflow_error`. -/
structure OverflowError where
  what : String
  deriving DecidableEq

def overflowError : OverflowError := ⟨"Computation would overflow unsigned long long max"⟩

abbrev Outcome := Option (Except OverflowError UInt64)

/-- `ULLMAX`. -/
def ullMax : UInt64 := 18446744073709551615

/-- The even one of two consecutive numbers is halved. -/
def halve (a b : UInt64) : UInt64 × UInt64 :=
  if a &&& 1 = 0 then (a >>> 1, b) else (a, b >>> 1)

/-- The product and the sum that end both functions, each behind its guard. -/
def productSum (a b c : UInt64) : Outcome :=
  if a = 0 then none
  else if ullMax / a < b then some (.error overflowError)
  else if ullMax - a * b < c then some (.error overflowError)
  else some (.ok (c + a * b))

def nondirectionalNonSelfEdgePairingFn (i j : UInt64) : Outcome :=
  let (i, j) := if j < i then (j, i) else (i, j)
  let (j, jm) := halve j (j - 1)
  productSum j jm i

/-- `sqrt` is that of Boost's `uint128_t`, the floor of the square root. -/
def invNondirNonSelfEdgePairingFn (idx : UInt64) : UInt64 × UInt64 :=
  let eidx := Word.unsigned 128 (8 * (idx.toNat : Int) + 1)
  let eidx := Word.unsigned 128 ((Nat.sqrt eidx : Int) + 1)
  let eidx := eidx / 2
  let j := UInt64.ofNat eidx
  let i := if j &&& 1 = 0 then idx - (j >>> 1) * (j - 1) else idx - j * ((j - 1) >>> 1)
  (i, j)

def cantorPairingFn (i j : UInt64) : Outcome :=
  if ullMax - i < j then some (.error overflowError)
  else if j < ullMax ∧ ullMax - i < j + 1 then some (.error overflowError)
  else
    let (am, bm) := halve (i + j) (i + j + 1)
    productSum am bm j

/-- The outcome for an exact value: the value if it fits, else the exception. -/
structure ExactOrThrows (value : Nat) (outcome : Outcome) : Prop where
  defined : outcome ≠ none
  throws : outcome = some (.error overflowError) ↔ 2 ^ 64 - 1 < value
  returns : value ≤ 2 ^ 64 - 1 → ∃ k, outcome = some (.ok k) ∧ k.toNat = value

section Words

def outcomeOf (value : Nat) : Outcome :=
  some (if value < 2 ^ 64 then .ok (UInt64.ofNat value) else .error overflowError)

theorem exactOrThrows_iff {value : Nat} {outcome : Outcome} :
    ExactOrThrows value outcome ↔ outcome = outcomeOf value := by
  rw [outcomeOf]
  by_cases fits : value < 2 ^ 64
  · rw [if_pos fits]
    constructor
    · intro exact
      obtain ⟨k, rfl, same⟩ := exact.returns (by omega)
      rw [← same, UInt64.ofNat_toNat]
    · rintro rfl
      refine ⟨nofun, iff_of_false nofun (by omega), fun _ => ⟨_, rfl, ?_⟩⟩
      exact UInt64.toNat_ofNat_of_lt' fits
  · rw [if_neg fits]
    constructor
    · intro exact
      exact exact.throws.mpr (by omega)
    · rintro rfl
      exact ⟨nofun, iff_of_true rfl (by omega), fun small => by omega⟩

theorem toNat_and_one (a : UInt64) : a &&& 1 = 0 ↔ a.toNat % 2 = 0 := by
  rw [← UInt64.toNat_inj, UInt64.toNat_and, ← Nat.and_one_is_mod]
  rfl

theorem toNat_half (a : UInt64) : (a >>> 1).toNat = a.toNat / 2 := by
  rw [UInt64.toNat_shiftRight]
  exact Nat.shiftRight_one _

theorem toNat_pred {a : UInt64} (positive : 0 < a.toNat) : (a - 1).toNat = a.toNat - 1 :=
  UInt64.toNat_sub_of_le _ _ (UInt64.le_iff_toNat_le.mpr positive)

theorem toNat_succ {a : UInt64} (below : a.toNat < 2 ^ 64 - 1) : (a + 1).toNat = a.toNat + 1 := by
  rw [UInt64.toNat_add]
  exact Nat.mod_eq_of_lt (show a.toNat + 1 < 2 ^ 64 by omega)

theorem toNat_ullMax_sub (a : UInt64) : (ullMax - a).toNat = 2 ^ 64 - 1 - a.toNat := by
  have small : a ≤ ullMax := by
    rw [UInt64.le_iff_toNat_le]
    exact Nat.le_of_lt_succ a.toNat_lt
  exact UInt64.toNat_sub_of_le _ _ small

/-- The two guards leave the exact sum or throw. -/
theorem productSum_eq {a : UInt64} (nonzero : a ≠ 0) (b c : UInt64) :
    productSum a b c = outcomeOf (c.toNat + a.toNat * b.toNat) := by
  have positive : 0 < a.toNat := by
    apply Nat.pos_of_ne_zero
    intro zero
    exact nonzero (UInt64.toNat_inj.mp zero)
  have small := c.toNat_lt
  rw [productSum, if_neg nonzero]
  by_cases overflows : ullMax / a < b
  · rw [if_pos overflows, outcomeOf, if_neg]
    rw [UInt64.lt_iff_toNat_lt, UInt64.toNat_div, Nat.div_lt_iff_lt_mul positive] at overflows
    change 2 ^ 64 - 1 < b.toNat * a.toNat at overflows
    rw [Nat.mul_comm] at overflows
    omega
  · rw [if_neg overflows]
    rw [UInt64.lt_iff_toNat_lt, UInt64.toNat_div, Nat.div_lt_iff_lt_mul positive] at overflows
    change ¬2 ^ 64 - 1 < b.toNat * a.toNat at overflows
    rw [Nat.mul_comm] at overflows
    have product : (a * b).toNat = a.toNat * b.toNat := by
      rw [UInt64.toNat_mul, Nat.mod_eq_of_lt (by omega)]
    have guard : ullMax - a * b < c ↔ 2 ^ 64 ≤ c.toNat + a.toNat * b.toNat := by
      rw [UInt64.lt_iff_toNat_lt, toNat_ullMax_sub, product]
      omega
    simp only [guard, outcomeOf]
    split
    · rw [if_neg (by omega)]
    · rw [if_pos (by omega), UInt64.ofNat_add, ← product, UInt64.ofNat_toNat, UInt64.ofNat_toNat]

theorem halve_product {a b : UInt64} (positive : 0 < a.toNat) {n : Nat}
    (even : a.toNat % 2 = 0 → a.toNat / 2 * b.toNat = n)
    (odd : a.toNat % 2 = 1 → a.toNat * (b.toNat / 2) = n) :
    (halve a b).1 ≠ 0 ∧ (halve a b).1.toNat * (halve a b).2.toNat = n := by
  rw [halve]
  by_cases parity : a &&& 1 = 0
  · have half := (toNat_and_one a).mp parity
    rw [if_pos parity]
    refine ⟨fun zero => ?_, by rw [toNat_half]; exact even half⟩
    have none := congrArg UInt64.toNat zero
    rw [toNat_half, UInt64.toNat_zero] at none
    omega
  · have half := mt (toNat_and_one a).mpr parity
    rw [if_neg parity]
    refine ⟨fun zero => ?_, by rw [toNat_half]; exact odd (by omega)⟩
    change a = 0 at zero
    rw [zero, UInt64.toNat_zero] at positive
    omega

end Words

section NonSelfEdge

/-- The exact value of an edge, whatever the order of its ends. -/
theorem pairing_of_lt {i j : UInt64} (order : i < j) :
    nondirectionalNonSelfEdgePairingFn i j = outcomeOf (i.toNat + triangle j.toNat) ∧
      nondirectionalNonSelfEdgePairingFn j i = outcomeOf (i.toNat + triangle j.toNat) := by
  have less : i.toNat < j.toNat := UInt64.lt_iff_toNat_lt.mp order
  have back : ¬j < i := by
    rw [UInt64.lt_iff_toNat_lt]
    omega
  have pred : (j - 1).toNat = j.toNat - 1 := toNat_pred (by omega)
  obtain ⟨nonzero, product⟩ := halve_product (a := j) (b := j - 1) (n := triangle j.toNat) (by omega)
    (fun even => by rw [pred]; exact triangle_of_even even)
    (fun odd => by rw [pred]; exact triangle_of_odd odd)
  have sum := productSum_eq nonzero (halve j (j - 1)).2 i
  rw [product] at sum
  constructor
  · simp only [nondirectionalNonSelfEdgePairingFn, if_neg back, sum]
  · simp only [nondirectionalNonSelfEdgePairingFn, if_pos order, sum]

/-- The exact number of an edge. -/
def edgeNumber (i j : UInt64) : Nat :=
  min i.toNat j.toNat + max i.toNat j.toNat * (max i.toNat j.toNat - 1) / 2

theorem edgeNumber_of_lt {i j : UInt64} (order : i < j) :
    edgeNumber i j = i.toNat + triangle j.toNat ∧ edgeNumber j i = i.toNat + triangle j.toNat := by
  have less : i.toNat ≤ j.toNat := (UInt64.lt_iff_toNat_lt.mp order).le
  rw [edgeNumber, edgeNumber, Nat.min_eq_left less, Nat.max_eq_right less, Nat.min_eq_right less,
    Nat.max_eq_left less]
  exact ⟨rfl, rfl⟩

theorem pairing_eq {i j : UInt64} (distinct : i ≠ j) :
    nondirectionalNonSelfEdgePairingFn i j = outcomeOf (edgeNumber i j) := by
  rcases UInt64.lt_or_lt_of_ne distinct with less | more
  · rw [(pairing_of_lt less).1, (edgeNumber_of_lt less).1]
  · rw [(pairing_of_lt more).2, (edgeNumber_of_lt more).2]

theorem pairing_comm {i j : UInt64} (distinct : i ≠ j) :
    nondirectionalNonSelfEdgePairingFn j i = nondirectionalNonSelfEdgePairingFn i j := by
  rw [pairing_eq distinct, pairing_eq distinct.symm, edgeNumber, edgeNumber, Nat.min_comm, Nat.max_comm]

/-- The first half of the inverse finds the row. -/
theorem inverse_row (idx : UInt64) :
    (invNondirNonSelfEdgePairingFn idx).2.toNat = triangleRoot idx.toNat := by
  have small := idx.toNat_lt
  have root : Nat.sqrt (8 * idx.toNat + 1) < 2 ^ 34 := by
    rw [Nat.sqrt_lt]
    omega
  have square : Word.unsigned 128 (8 * (idx.toNat : Int) + 1) = 8 * idx.toNat + 1 := by
    have := Word.unsigned_natCast (w := 128) (x := 8 * idx.toNat + 1) (by omega)
    push_cast at this
    exact this
  have next : Word.unsigned 128 ((Nat.sqrt (8 * idx.toNat + 1) : Int) + 1) =
      Nat.sqrt (8 * idx.toNat + 1) + 1 := by
    have := Word.unsigned_natCast (w := 128) (x := Nat.sqrt (8 * idx.toNat + 1) + 1) (by omega)
    push_cast at this
    exact this
  simp only [invNondirNonSelfEdgePairingFn, square, next]
  have row : triangleRoot idx.toNat < 2 ^ 64 := by
    rw [triangleRoot]
    omega
  exact UInt64.toNat_ofNat_of_lt' row

theorem toNat_sub_product {idx a b : UInt64} {n : Nat} (product : a.toNat * b.toNat = n)
    (below : n ≤ idx.toNat) : (idx - a * b).toNat = idx.toNat - n := by
  have small := idx.toNat_lt
  have exact : (a * b).toNat = n := by
    rw [UInt64.toNat_mul, product]
    exact Nat.mod_eq_of_lt (by omega)
  rw [UInt64.toNat_sub_of_le _ _ (UInt64.le_iff_toNat_le.mpr (exact ▸ below)), exact]

/-- The second half subtracts the start of the row. -/
theorem offset_toNat {idx j : UInt64} (positive : 0 < j.toNat) (below : triangle j.toNat ≤ idx.toNat) :
    (if j &&& 1 = 0 then idx - (j >>> 1) * (j - 1) else idx - j * ((j - 1) >>> 1)).toNat =
      idx.toNat - triangle j.toNat := by
  split
  next even =>
    apply toNat_sub_product _ below
    rw [toNat_half, toNat_pred positive, triangle_of_even ((toNat_and_one j).mp even)]
  next odd =>
    have parity := mt (toNat_and_one j).mpr odd
    apply toNat_sub_product _ below
    rw [toNat_half, toNat_pred positive, triangle_of_odd (by omega)]

theorem inverse_offset (idx : UInt64) :
    (invNondirNonSelfEdgePairingFn idx).1.toNat =
      idx.toNat - triangle (triangleRoot idx.toNat) := by
  have row := inverse_row idx
  have positive := triangleRoot_pos idx.toNat
  have below := triangle_root_le idx.toNat
  rw [← row] at positive below ⊢
  exact offset_toNat positive below

theorem inverse_eq {i j idx : UInt64} (order : i < j) (number : idx.toNat = i.toNat + triangle j.toNat) :
    invNondirNonSelfEdgePairingFn idx = (i, j) := by
  have root := triangleRoot_add (UInt64.lt_iff_toNat_lt.mp order)
  have row := inverse_row idx
  have offset := inverse_offset idx
  rw [number, root] at row offset
  apply Prod.ext
  · exact UInt64.toNat_inj.mp (by rw [offset, Nat.add_sub_cancel])
  · exact UInt64.toNat_inj.mp row

theorem outcomeOf_eq_ok {value : Nat} {k : UInt64} (returned : outcomeOf value = some (.ok k)) :
    k.toNat = value := by
  rw [outcomeOf] at returned
  split at returned
  next fits =>
    cases returned
    exact UInt64.toNat_ofNat_of_lt' fits
  next => cases returned

theorem inverse_of_pairing {i j k : UInt64} (distinct : i ≠ j)
    (returned : nondirectionalNonSelfEdgePairingFn i j = some (.ok k)) :
    invNondirNonSelfEdgePairingFn k = (min i j, max i j) := by
  rw [pairing_eq distinct] at returned
  have number := outcomeOf_eq_ok returned
  rcases UInt64.lt_or_lt_of_ne distinct with less | more
  · rw [(edgeNumber_of_lt less).1] at number
    have ends : i ≤ j := UInt64.le_of_lt less
    rw [inverse_eq less number]
    exact Prod.ext (if_pos ends).symm (if_pos ends).symm
  · rw [(edgeNumber_of_lt more).2] at number
    have ends : ¬i ≤ j := UInt64.not_le.mpr more
    rw [inverse_eq more number]
    exact Prod.ext (if_neg ends).symm (if_neg ends).symm

theorem inverse_lt (idx : UInt64) :
    (invNondirNonSelfEdgePairingFn idx).1 < (invNondirNonSelfEdgePairingFn idx).2 := by
  have below := triangle_root_le idx.toNat
  have above := lt_triangle_root_succ idx.toNat
  rw [triangle_succ] at above
  rw [UInt64.lt_iff_toNat_lt, inverse_row, inverse_offset]
  omega

theorem pairing_of_inverse (idx : UInt64) :
    nondirectionalNonSelfEdgePairingFn (invNondirNonSelfEdgePairingFn idx).1
      (invNondirNonSelfEdgePairingFn idx).2 = some (.ok idx) := by
  have number : (invNondirNonSelfEdgePairingFn idx).1.toNat +
      triangle (invNondirNonSelfEdgePairingFn idx).2.toNat = idx.toNat := by
    rw [inverse_row, inverse_offset]
    exact Nat.sub_add_cancel (triangle_root_le idx.toNat)
  rw [(pairing_of_lt (inverse_lt idx)).1, number, outcomeOf, if_pos idx.toNat_lt, UInt64.ofNat_toNat]

/-- Edge numbers: exact or thrown, the same in both orders, and inverted. -/
theorem pairing_inverse :
    (∀ i j : UInt64, i ≠ j →
      ExactOrThrows (min i.toNat j.toNat + max i.toNat j.toNat * (max i.toNat j.toNat - 1) / 2)
        (nondirectionalNonSelfEdgePairingFn i j) ∧
      nondirectionalNonSelfEdgePairingFn j i = nondirectionalNonSelfEdgePairingFn i j ∧
      ∀ k, nondirectionalNonSelfEdgePairingFn i j = some (.ok k) →
        invNondirNonSelfEdgePairingFn k = (min i j, max i j)) ∧
    ∀ idx : UInt64, (invNondirNonSelfEdgePairingFn idx).1 < (invNondirNonSelfEdgePairingFn idx).2 ∧
      nondirectionalNonSelfEdgePairingFn (invNondirNonSelfEdgePairingFn idx).1
        (invNondirNonSelfEdgePairingFn idx).2 = some (.ok idx) := by
  constructor
  · intro i j distinct
    refine ⟨exactOrThrows_iff.mpr (pairing_eq distinct), pairing_comm distinct, fun k returned => ?_⟩
    exact inverse_of_pairing distinct returned
  · intro idx
    exact ⟨inverse_lt idx, pairing_of_inverse idx⟩

theorem pairing_inverse_five :
    nondirectionalNonSelfEdgePairingFn 5 3 = some (.ok 13) ∧ invNondirNonSelfEdgePairingFn 13 = (3, 5) :=
  ⟨by decide +kernel, (pairing_inverse.1 5 3 (by decide)).2.2 13 (by decide +kernel)⟩

end NonSelfEdge

section Cantor

/-- Whenever neither sum wraps, the guards before the product do not matter. -/
theorem cantor_of_le {i j : UInt64} (fits : i.toNat + j.toNat < 2 ^ 64 - 1)
    (positive : 0 < i.toNat + j.toNat) :
    cantorPairingFn i j = outcomeOf (triangle (i.toNat + j.toNat + 1) + j.toNat) := by
  have first : ¬ullMax - i < j := by
    rw [UInt64.lt_iff_toNat_lt, toNat_ullMax_sub]
    omega
  have next : (j + 1).toNat = j.toNat + 1 := toNat_succ (by omega)
  have second : ¬(j < ullMax ∧ ullMax - i < j + 1) := by
    rintro ⟨-, wrapped⟩
    rw [UInt64.lt_iff_toNat_lt, toNat_ullMax_sub, next] at wrapped
    omega
  have sum : (i + j).toNat = i.toNat + j.toNat := by
    rw [UInt64.toNat_add, Nat.mod_eq_of_lt (by omega)]
  have sumNext : (i + j + 1).toNat = i.toNat + j.toNat + 1 := by
    rw [toNat_succ (by omega), sum]
  obtain ⟨nonzero, product⟩ := halve_product (a := i + j) (b := i + j + 1)
    (n := triangle (i.toNat + j.toNat + 1)) (by omega)
    (fun even => by
      rw [sum] at even ⊢
      rw [sumNext, ← triangle_of_odd (by omega), Nat.add_sub_cancel, Nat.mul_comm])
    (fun odd => by
      rw [sum] at odd ⊢
      rw [sumNext, ← triangle_of_even (by omega), Nat.add_sub_cancel, Nat.mul_comm])
  simp only [cantorPairingFn, if_neg first, if_neg second]
  rw [productSum_eq nonzero, product, Nat.add_comm]

/-- A sum that does not leave room for its successor is too large by far. -/
theorem large_triangle {s : Nat} (large : 2 ^ 64 - 1 ≤ s) : 2 ^ 64 ≤ triangle (s + 1) :=
  le_trans (show 2 ^ 64 ≤ triangle (2 ^ 64 - 1 + 1) by decide +kernel)
    (triangle_mono (Nat.add_le_add_right large 1))

theorem cantor_of_large {i j : UInt64} (large : 2 ^ 64 - 1 ≤ i.toNat + j.toNat)
    (edge : (i, j) ≠ (0, ullMax)) :
    cantorPairingFn i j = outcomeOf (triangle (i.toNat + j.toNat + 1) + j.toNat) := by
  have huge := large_triangle large
  rw [outcomeOf, if_neg (by omega)]
  by_cases first : ullMax - i < j
  · rw [cantorPairingFn, if_pos first]
  · have tight : i.toNat + j.toNat = 2 ^ 64 - 1 := by
      have small := i.toNat_lt
      rw [UInt64.lt_iff_toNat_lt, toNat_ullMax_sub] at first
      omega
    have below : j.toNat < 2 ^ 64 - 1 := by
      apply Nat.lt_of_le_of_ne (by omega)
      intro last
      exact edge (Prod.ext (UInt64.toNat_inj.mp (show i.toNat = 0 by omega)) (UInt64.toNat_inj.mp last))
    have next := toNat_succ below
    have second : j < ullMax ∧ ullMax - i < j + 1 := by
      refine ⟨UInt64.lt_iff_toNat_lt.mpr below, ?_⟩
      rw [UInt64.lt_iff_toNat_lt, toNat_ullMax_sub, next]
      omega
    rw [cantorPairingFn, if_neg first, if_pos second]

/-- The diagonal number is a triangle and an offset in its row. -/
theorem cantorNumber_eq (s j : Nat) : s * (s + 1) / 2 + j = triangle (s + 1) + j := by
  rw [triangle, Nat.add_sub_cancel, Nat.mul_comm]

theorem cantor_eq {i j : UInt64} (start : (i, j) ≠ (0, 0)) (edge : (i, j) ≠ (0, ullMax)) :
    cantorPairingFn i j = outcomeOf (triangle (i.toNat + j.toNat + 1) + j.toNat) := by
  by_cases large : 2 ^ 64 - 1 ≤ i.toNat + j.toNat
  · exact cantor_of_large large edge
  · apply cantor_of_le (by omega)
    apply Nat.pos_of_ne_zero
    intro zero
    exact start (Prod.ext (UInt64.toNat_inj.mp (show i.toNat = 0 by omega))
      (UInt64.toNat_inj.mp (show j.toNat = 0 by omega)))

theorem cantor_zero : cantorPairingFn 0 0 = none := by decide +kernel

theorem cantor_edge : cantorPairingFn 0 ullMax = some (.ok ullMax) := by decide +kernel

theorem cantor_returned {i j k : UInt64} (edge : (i, j) ≠ (0, ullMax))
    (returned : cantorPairingFn i j = some (.ok k)) :
    k.toNat = triangle (i.toNat + j.toNat + 1) + j.toNat := by
  have start : (i, j) ≠ (0, 0) := by
    rintro ⟨⟩
    cases cantor_zero.symm.trans returned
  rw [cantor_eq start edge] at returned
  exact outcomeOf_eq_ok returned

/-- Two pairs are left out by the guards; the other ones are exact or throw, and
no two of them have the same number. -/
theorem cantor_exact_iff (i j : UInt64) :
    (ExactOrThrows ((i.toNat + j.toNat) * (i.toNat + j.toNat + 1) / 2 + j.toNat) (cantorPairingFn i j) ↔
      (i, j) ≠ (0, 0) ∧ (i, j) ≠ (0, ullMax)) ∧
    ∀ i' j' k : UInt64, (i, j) ≠ (0, ullMax) → (i', j') ≠ (0, ullMax) →
      cantorPairingFn i j = some (.ok k) → cantorPairingFn i' j' = some (.ok k) →
        (i, j) = (i', j') := by
  refine ⟨?_, fun i' j' k edge edge' returned returned' => ?_⟩
  · rw [cantorNumber_eq]
    constructor
    · intro exact
      constructor
      · rintro ⟨⟩
        exact exact.defined cantor_zero
      · rintro ⟨⟩
        have thrown := exact.throws.mpr (by decide +kernel)
        rw [cantor_edge] at thrown
        cases thrown
    · rintro ⟨start, edge⟩
      exact exactOrThrows_iff.mpr (cantor_eq start edge)
  · have number := cantor_returned edge returned
    have number' := cantor_returned edge' returned'
    have inside : j.toNat < i.toNat + j.toNat + 1 := by omega
    have inside' : j'.toNat < i'.toNat + j'.toNat + 1 := by omega
    obtain ⟨column, row⟩ := add_triangle_inj inside inside' (by omega)
    exact Prod.ext (UInt64.toNat_inj.mp (show i.toNat = i'.toNat by omega)) (UInt64.toNat_inj.mp column)

theorem cantor_exact_two :
    ExactOrThrows 17 (cantorPairingFn 3 2) ∧
      ∀ i j : UInt64, (i, j) ≠ (0, ullMax) → cantorPairingFn i j = some (.ok 17) → (3, 2) = (i, j) :=
  ⟨(cantor_exact_iff 3 2).1.mpr ⟨by decide, by decide⟩, fun i j edge returned =>
    (cantor_exact_iff 3 2).2 i j 17 (by decide) edge (by decide +kernel) returned⟩

/-- A division by zero at the origin; on the other pair no exception, and the
number of a second pair. -/
theorem cantor_not_exact :
    ¬ExactOrThrows 0 (cantorPairingFn 0 0) ∧
      ¬ExactOrThrows ((2 ^ 64 - 1) * 2 ^ 64 / 2 + (2 ^ 64 - 1)) (cantorPairingFn 0 ullMax) ∧
      cantorPairingFn 0 ullMax = some (.ok ullMax) ∧
      cantorPairingFn 3327948884 2746052115 = some (.ok ullMax) := by
  refine ⟨fun exact => exact.defined cantor_zero, fun exact => ?_, cantor_edge, by decide +kernel⟩
  have thrown := exact.throws.mpr (by decide +kernel)
  rw [cantor_edge] at thrown
  cases thrown

end Cantor

end Zeppelin.Sketch.Pairing
