import Zeppelin.Sketch.Int127

/-! Quotients, remainders and comparisons of `int127.cpp`. Equality compares
stored words and order compares decoded numbers; they agree because every
reachable object holds a canonical word. The comparison with a `long long`
converts it to `uint128_t`, which is two's complement. -/
namespace Zeppelin.Sketch

namespace Int128

/-- Boost rounds towards zero; `none` is its `std::overflow_error` for a zero divisor. -/
def div (a b : Int128) : Option Int128 :=
  if b.value = 0 then none else some (ofInt (a.value.tdiv b.value))

/-- The remainder has the sign of the dividend. -/
def mod (a b : Int128) : Option Int128 :=
  if b.value = 0 then none else some (ofInt (a.value.tmod b.value))

end Int128

namespace Int127

section Operators

def div (lhs rhs : Int127) : Option (Except Int127Exception Int127) :=
  (lhs.toBoostInt128.div rhs.toBoostInt128).map ofInt128

def mod (lhs rhs : Int127) : Option (Except Int127Exception Int127) :=
  (lhs.toBoostInt128.mod rhs.toBoostInt128).map ofInt128

def eq (lhs rhs : Int127) : Bool := lhs.mValue = rhs.mValue

def ne (lhs rhs : Int127) : Bool := lhs.mValue ≠ rhs.mValue

def gt (lhs rhs : Int127) : Bool := lhs.toBoostInt128.value > rhs.toBoostInt128.value

def le (lhs rhs : Int127) : Bool := lhs.toBoostInt128.value ≤ rhs.toBoostInt128.value

def neLongLong (lhs : Int127) (rhs : Int64) : Bool := lhs.mValue ≠ BitVec.ofInt 128 rhs.toInt

end Operators

section Reachability

/-- The object that a member leaves, also when it throws. -/
def object : EStateM.Result Int127Exception Int127 Unit → Int127
  | .ok _ x => x
  | .error _ x => x

/-- What the constructors, assignments and operators build. Copies of an object
hold its word and need no case of their own. -/
inductive Reachable : Int127 → Prop where
  | construct : construct v = .ok x → Reachable x
  | assign (v : Source) : Reachable old → Reachable (object (assign v old))
  | add : Reachable x → Reachable y → add x y = .ok z → Reachable z
  | sub : Reachable x → Reachable y → sub x y = .ok z → Reachable z
  | addAssign : Reachable x → Reachable y → Reachable (object (addAssign y x))
  | div : Reachable x → Reachable y → div x y = some (.ok z) → Reachable z
  | mod : Reachable x → Reachable y → mod x y = some (.ok z) → Reachable z
  | mulLong (k : Int64) : Reachable x → mulLong x k = .ok z → Reachable z

instance (x : Int127) : Decidable x.Canonical :=
  inferInstanceAs (Decidable (SignMagnitude.Canonical 127 x.mValue.toNat))

theorem canonical_ofInt128 {other : Int128} {x : Int127} (built : ofInt128 other = .ok x) :
    x.Canonical := by
  rw [ofInt128_eq] at built
  split at built
  next => cases built
  next small =>
    cases built
    exact canonical_word (Nat.lt_of_not_le small)

theorem canonical_fromSigned {v : Int} (low : -2 ^ 63 ≤ v) (high : v < 2 ^ 63) :
    (Int127.mk (fromSigned v (-v))).Canonical := by
  rw [fromSigned_neg]
  exact canonical_word (by omega)

/-- The negation of the least `int` or `long` wraps, which clears the sign bit. -/
theorem canonical_construct {v : Source} {x : Int127} (built : construct v = .ok x) : x.Canonical := by
  cases v with
  | int v =>
    cases built
    by_cases least : v = Int32.minValue
    · subst least
      decide +kernel
    · rw [ofInt, int_neg least]
      have low := v.le_toInt
      have high := v.toInt_lt
      exact canonical_fromSigned (by omega) (by omega)
  | long v =>
    cases built
    by_cases least : v = Int64.minValue
    · subst least
      decide +kernel
    · rw [ofLong, long_neg least]
      exact canonical_fromSigned v.le_toInt v.toInt_lt
  | unsignedLong v =>
    cases built
    have high := v.toNat_lt
    exact canonical_word (v := v.toNat) (by omega)
  | int128 v => exact canonical_ofInt128 built

theorem canonical_stored {x : Int127} {result : Except Int127Exception Int127} (before : x.Canonical)
    (built : ∀ z, result = .ok z → z.Canonical) : (object (stored x result)).Canonical := by
  cases result with
  | error e => exact before
  | ok z => exact built z rfl

/-- Every word is built by an encoder, and encoders build canonical words. -/
theorem Reachable.canonical {x : Int127} (reachable : Reachable x) : x.Canonical := by
  induction reachable with
  | construct built => exact canonical_construct built
  | assign v _ ih =>
    rw [assign_eq]
    exact canonical_stored ih fun _ => canonical_construct
  | add _ _ built => exact canonical_ofInt128 built
  | sub _ _ built => exact canonical_ofInt128 built
  | addAssign _ _ ih =>
    rw [addAssign_eq]
    exact canonical_stored ih fun _ => canonical_ofInt128
  | div _ _ built =>
    obtain ⟨quotient, -, built⟩ := Option.map_eq_some_iff.mp built
    exact canonical_ofInt128 built
  | mod _ _ built =>
    obtain ⟨remainder, -, built⟩ := Option.map_eq_some_iff.mp built
    exact canonical_ofInt128 built
  | mulLong k _ built => exact canonical_ofInt128 built

theorem eq_word {x : Int127} (canonical : x.Canonical) : x = word x.toBoostInt128.value := by
  have encoded := SignMagnitude.encode_decode canonical
  rw [word, value_toBoostInt128, encoded, BitVec.ofNat_toNat, BitVec.setWidth_eq]

end Reachability

section Comparisons

/-- A canonical word is determined by its number. -/
theorem mValue_eq_iff {x y : Int127} (hx : x.Canonical) (hy : y.Canonical) :
    x.mValue = y.mValue ↔ x.toBoostInt128.value = y.toBoostInt128.value := by
  constructor
  · intro same
    rw [toBoostInt128, toBoostInt128, same]
  · intro same
    rw [eq_word hx, eq_word hy, same]

/-- The number whose word a converted `long long` is. -/
def converted (v : Int64) : Int := if v.toInt < 0 then -(2 ^ 127 + v.toInt) else v.toInt

theorem ofInt_eq_word (v : Int64) : BitVec.ofInt 128 v.toInt = (word (converted v)).mValue := by
  have low := v.le_toInt
  have high := v.toInt_lt
  rw [word, converted, SignMagnitude.encode]
  apply BitVec.eq_of_toNat_eq
  rw [BitVec.toNat_ofInt, BitVec.toNat_ofNat]
  split
  next negative =>
    rw [if_pos (by omega)]
    omega
  next nonneg => omega

theorem natAbs_converted_lt (v : Int64) : (converted v).natAbs < 2 ^ 127 := by
  have low := v.le_toInt
  have high := v.toInt_lt
  rw [converted]
  split <;> omega

theorem neLongLong_iff {x : Int127} (canonical : x.Canonical) (v : Int64) :
    x.neLongLong v = true ↔ x.toBoostInt128.value ≠ converted v := by
  have fits := natAbs_converted_lt v
  rw [neLongLong, decide_eq_true_eq, ofInt_eq_word, ne_eq, ne_eq,
    mValue_eq_iff canonical (canonical_word fits), value_word fits]

/-- All comparisons answer as for the decoded numbers. -/
structure ComparesAsNumbers (x y : Int127) (v : Int64) : Prop where
  eq : x.eq y = true ↔ x.toBoostInt128.value = y.toBoostInt128.value
  ne : x.ne y = true ↔ x.toBoostInt128.value ≠ y.toBoostInt128.value
  gt : x.gt y = true ↔ x.toBoostInt128.value > y.toBoostInt128.value
  le : x.le y = true ↔ x.toBoostInt128.value ≤ y.toBoostInt128.value
  neLongLong : x.neLongLong v = true ↔ x.toBoostInt128.value ≠ v.toInt

/-- A negative `long long` is taken for another number, and the answer is wrong
for both of them. -/
theorem comparesAsNumbers_iff (x y : Int127) (v : Int64) (hx : Reachable x) (hy : Reachable y) :
    ComparesAsNumbers x y v ↔
      0 ≤ v.toInt ∨
        x.toBoostInt128.value ≠ v.toInt ∧ x.toBoostInt128.value ≠ -(2 ^ 127 + v.toInt) := by
  have same := mValue_eq_iff hx.canonical hy.canonical
  have mixed := neLongLong_iff hx.canonical v
  have low := v.le_toInt
  rw [converted] at mixed
  constructor
  · intro compares
    have answer := mixed.symm.trans compares.neLongLong
    split at answer <;> omega
  · intro apart
    refine ⟨?_, ?_, ?_, ?_, mixed.trans ?_⟩
    · rw [Int127.eq, decide_eq_true_eq, same]
    · rw [ne, decide_eq_true_eq, ne_eq, same]
    · rw [gt, decide_eq_true_eq]
    · rw [le, decide_eq_true_eq]
    · split <;> omega

theorem reachable_ofInt (v : Int32) : Reachable (ofInt v) := .construct (v := .int v) rfl

theorem comparesAsNumbers_zero : ComparesAsNumbers (ofInt (-1)) (ofInt 0) 0 :=
  (comparesAsNumbers_iff (ofInt (-1)) (ofInt 0) 0 (reachable_ofInt _) (reachable_ofInt _)).mpr
    (.inl (by decide))

/-- `int127(-1) != -1LL`. -/
theorem minus_one_ne_itself :
    Reachable (ofInt (-1)) ∧ (ofInt (-1)).toBoostInt128.value = (-1 : Int64).toInt ∧
      (ofInt (-1)).neLongLong (-1) = true ∧ ¬ComparesAsNumbers (ofInt (-1)) (ofInt (-1)) (-1) := by
  have decoded : (ofInt (-1)).toBoostInt128.value = (-1 : Int64).toInt := by decide +kernel
  have differs : (ofInt (-1)).neLongLong (-1) = true := by decide +kernel
  exact ⟨reachable_ofInt _, decoded, differs, fun compares => compares.neLongLong.mp differs decoded⟩

end Comparisons

end Int127

end Zeppelin.Sketch
