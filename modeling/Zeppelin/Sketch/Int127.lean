import Mathlib.Data.Int.Bitwise
import Zeppelin.Machine.SignMagnitude
import Zeppelin.Machine.Word

/-! `int127` of `int127.cpp`: a sign bit and a 127-bit magnitude in one Boost
`uint128_t`. Arithmetic goes through Boost's `int128_t`, which is a sign and a
128-bit magnitude; its operations are unchecked and drop the bits of a magnitude
from `2 ^ 128` on. -/
namespace Zeppelin.Sketch

/-- `uint128_t`. -/
abbrev UInt128 := BitVec 128

/-- `int128_t`. -/
structure Int128 where
  value : Int
  fits : value.natAbs < 2 ^ 128

namespace Int128

def ofInt (x : Int) : Int128 := ⟨Word.signMagnitude 128 x, Word.natAbs_signMagnitude_lt 128 x⟩

def ofUInt128 (u : UInt128) : Int128 := ⟨u.toNat, u.isLt⟩

/-- `static_cast<uint128_t>`. -/
def toUInt128 (a : Int128) : UInt128 := BitVec.ofInt 128 a.value

instance : Neg Int128 := ⟨fun a => ofInt (-a.value)⟩

instance : Add Int128 := ⟨fun a b => ofInt (a.value + b.value)⟩

instance : Sub Int128 := ⟨fun a b => ofInt (a.value - b.value)⟩

instance : AndOp Int128 := ⟨fun a b => ofInt (Int.land a.value b.value)⟩

def abs (a : Int128) : Int128 := ofInt a.value.natAbs

/-- The product with a `long`. -/
def mulLong (a : Int128) (k : Int64) : Int128 := ofInt (a.value * k.toInt)

theorem value_ofInt {x : Int} (fits : x.natAbs < 2 ^ 128) : (ofInt x).value = x :=
  Word.signMagnitude_eq_self fits

@[simp]
theorem value_neg (a : Int128) : (-a).value = -a.value :=
  value_ofInt (by rw [Int.natAbs_neg]; exact a.fits)

@[simp]
theorem value_abs (a : Int128) : a.abs.value = a.value.natAbs :=
  value_ofInt a.fits

end Int128

def highBitmask : UInt128 := 0x80000000000000000000000000000000#128

theorem lowBitmask_fits : (0x7FFFFFFFFFFFFFFFFFFFFFFFFFFFFFFF : Int).natAbs < 2 ^ 128 := by decide

def lowBitmask : Int128 := ⟨0x7FFFFFFFFFFFFFFFFFFFFFFFFFFFFFFF, lowBitmask_fits⟩

/-- The exception classes of `int127.h`. -/
inductive Int127Exception where
  | int127Overflow
  | invalidUInt128Cast
  deriving DecidableEq

def Int127Exception.what : Int127Exception → String
  | int127Overflow => "Computation would overflow int127 type!"
  | invalidUInt128Cast => "Cannot cast a negative to unsigned type!"

structure Int127 where
  mValue : UInt128
  deriving DecidableEq

namespace Int127

/-- A member that assigns to `*this`; what it throws leaves the object as it is then. -/
abbrev Member := EStateM Int127Exception Int127 Unit

def toBoostInt128 (x : Int127) : Int128 :=
  if x.mValue &&& highBitmask ≠ 0 then -(.ofUInt128 x.mValue &&& lowBitmask)
  else .ofUInt128 x.mValue

def toBoostUInt128 (x : Int127) : Except Int127Exception UInt128 :=
  if x.mValue &&& highBitmask ≠ 0 then .error .invalidUInt128Cast else .ok x.mValue

/-- The word that the constructor, the assignment and `+=` store. -/
def fromInt128 (other : Int128) : Except Int127Exception UInt128 :=
  if (other.abs &&& .ofUInt128 highBitmask).value ≠ 0 then .error .int127Overflow
  else if other.value < 0 then .ok (-other + .ofUInt128 highBitmask).toUInt128
  else .ok other.toUInt128

/-- The word for a `long` or an `int`. Its negation, taken in its own type, is
added to the mask if it is negative. -/
def fromSigned (other negated : Int) : UInt128 :=
  if other < 0 then highBitmask + BitVec.ofInt 128 negated else BitVec.ofInt 128 other

section Constructors

def ofInt128 (other : Int128) : Except Int127Exception Int127 := do
  return ⟨← fromInt128 other⟩

def ofUnsignedLong (other : UInt64) : Int127 := ⟨BitVec.ofNat 128 other.toNat⟩

def ofLong (other : Int64) : Int127 := ⟨fromSigned other.toInt (-other).toInt⟩

def ofInt (other : Int32) : Int127 := ⟨fromSigned other.toInt (-other).toInt⟩

end Constructors

section Assignments

def assignInt128 (other : Int128) : Member := do
  let value ← MonadExcept.ofExcept (fromInt128 other)
  set (Int127.mk value)

def assignUnsignedLong (other : UInt64) : Member := set (Int127.mk (BitVec.ofNat 128 other.toNat))

def assignLong (other : Int64) : Member := set (Int127.mk (fromSigned other.toInt (-other).toInt))

def assignInt (other : Int32) : Member := set (Int127.mk (fromSigned other.toInt (-other).toInt))

end Assignments

section Operators

def add (lhs rhs : Int127) : Except Int127Exception Int127 :=
  ofInt128 (lhs.toBoostInt128 + rhs.toBoostInt128)

def sub (lhs rhs : Int127) : Except Int127Exception Int127 :=
  ofInt128 (lhs.toBoostInt128 - rhs.toBoostInt128)

def addAssign (rhs : Int127) : Member := do
  let lhs ← get
  let temp := lhs.toBoostInt128 + rhs.toBoostInt128
  let value ← MonadExcept.ofExcept (fromInt128 temp)
  set (Int127.mk value)

def mulLong (lhs : Int127) (rhs : Int64) : Except Int127Exception Int127 :=
  ofInt128 (lhs.toBoostInt128.mulLong rhs)

end Operators

/-- Zero has its sign bit clear. -/
def Canonical (x : Int127) : Prop := SignMagnitude.Canonical 127 x.mValue.toNat

theorem sign_iff (u : UInt128) : u &&& highBitmask ≠ 0 ↔ 2 ^ 127 ≤ u.toNat := by
  rw [← SignMagnitude.sign_bit_iff u.isLt, ne_eq, ne_eq, ← BitVec.toNat_inj, BitVec.toNat_and]
  rfl

theorem natAbs_le_of_and {m n : Nat} (word : m < 2 ^ 128) : ((m &&& n : Nat) : Int).natAbs < 2 ^ 128 :=
  Nat.lt_of_le_of_lt (by rw [Int.natAbs_natCast]; exact Nat.and_le_left) word

/-- The decoder is that of sign and magnitude. -/
theorem value_toBoostInt128 (x : Int127) :
    x.toBoostInt128.value = SignMagnitude.decode 127 x.mValue.toNat := by
  have word := x.mValue.isLt
  rw [toBoostInt128, SignMagnitude.decode]
  by_cases negative : 2 ^ 127 ≤ x.mValue.toNat
  · have masked : (Int128.ofUInt128 x.mValue &&& lowBitmask).value =
        ((x.mValue.toNat &&& (2 ^ 127 - 1) : Nat) : Int) :=
      Int128.value_ofInt (natAbs_le_of_and word)
    have low : x.mValue.toNat % 2 ^ 127 = x.mValue.toNat - 2 ^ 127 := by omega
    rw [if_pos ((sign_iff _).mpr negative), if_pos negative, Int128.value_neg, masked,
      Nat.and_two_pow_sub_one_eq_mod, low]
  · rw [if_neg (mt (sign_iff _).mp negative), if_neg negative]
    rfl

/-- The overflow check looks at bit 127 of the magnitude. -/
theorem overflow_iff (other : Int128) :
    (other.abs &&& .ofUInt128 highBitmask).value ≠ 0 ↔ 2 ^ 127 ≤ other.value.natAbs := by
  have bits : Int.land other.abs.value (Int128.ofUInt128 highBitmask).value =
      ((other.value.natAbs &&& 2 ^ 127 : Nat) : Int) := by
    rw [Int128.value_abs]
    rfl
  have masked : (other.abs &&& .ofUInt128 highBitmask).value = _ :=
    (Int128.value_ofInt (by rw [bits]; exact natAbs_le_of_and other.fits)).trans bits
  rw [masked, ← SignMagnitude.sign_bit_iff other.fits]
  exact not_congr Int.natCast_eq_zero

/-- A negative number is negated and gets the sign bit. -/
theorem value_masked {other : Int128} (fits : other.value.natAbs < 2 ^ 127) (negative : other.value < 0) :
    (-other + .ofUInt128 highBitmask).value = ((other.value.natAbs + 2 ^ 127 : Nat) : Int) := by
  have exact : (-other).value + (Int128.ofUInt128 highBitmask).value =
      ((other.value.natAbs + 2 ^ 127 : Nat) : Int) := by
    rw [Int128.value_neg]
    change -other.value + 2 ^ 127 = _
    omega
  exact (Int128.value_ofInt (by rw [exact]; omega)).trans exact

/-- The encoder is that of sign and magnitude, and throws what does not fit. -/
theorem fromInt128_eq (other : Int128) :
    fromInt128 other =
      if 2 ^ 127 ≤ other.value.natAbs then .error .int127Overflow
      else .ok (BitVec.ofNat 128 (SignMagnitude.encode 127 other.value)) := by
  rw [fromInt128]
  by_cases large : 2 ^ 127 ≤ other.value.natAbs
  · rw [if_pos ((overflow_iff other).mpr large), if_pos large]
  · rw [if_neg (mt (overflow_iff other).mp large), if_neg large, SignMagnitude.encode]
    split
    next negative =>
      rw [Int128.toUInt128, value_masked (Nat.lt_of_not_le large) negative, BitVec.ofInt_natCast]
    next nonneg =>
      rw [Int128.toUInt128, ← Int.natAbs_of_nonneg (Int.not_lt.mp nonneg), BitVec.ofInt_natCast]
      rfl

/-- The outcome for an exact integer: its canonical word if it fits, else the exception. -/
structure ExactOrThrows (exact : Int) (outcome : Except Int127Exception Int127) : Prop where
  throws : outcome = .error .int127Overflow ↔ 2 ^ 127 ≤ exact.natAbs
  returns : exact.natAbs < 2 ^ 127 →
    ∃ result, outcome = .ok result ∧ result.Canonical ∧ result.toBoostInt128.value = exact

/-- The word of an integer that fits. -/
def word (v : Int) : Int127 := ⟨BitVec.ofNat 128 (SignMagnitude.encode 127 v)⟩

theorem toNat_word {v : Int} (fits : v.natAbs < 2 ^ 127) :
    (word v).mValue.toNat = SignMagnitude.encode 127 v :=
  Nat.mod_eq_of_lt (SignMagnitude.encode_lt fits)

theorem canonical_word {v : Int} (fits : v.natAbs < 2 ^ 127) : (word v).Canonical := by
  rw [Canonical, toNat_word fits]
  exact SignMagnitude.canonical_encode fits

theorem value_word {v : Int} (fits : v.natAbs < 2 ^ 127) : (word v).toBoostInt128.value = v := by
  rw [value_toBoostInt128, toNat_word fits, SignMagnitude.decode_encode fits]

theorem natAbs_value_lt (x : Int127) : x.toBoostInt128.value.natAbs < 2 ^ 127 := by
  rw [value_toBoostInt128]
  exact SignMagnitude.natAbs_decode_lt x.mValue.isLt

theorem ofInt128_eq (other : Int128) :
    ofInt128 other =
      if 2 ^ 127 ≤ other.value.natAbs then .error .int127Overflow else .ok (word other.value) := by
  rw [ofInt128, fromInt128_eq]
  split
  · rfl
  · rfl

theorem ofInt128_exact (other : Int128) : ExactOrThrows other.value (ofInt128 other) := by
  rw [ofInt128_eq]
  split
  next large => exact ⟨iff_of_true rfl large, fun fits => by omega⟩
  next fits =>
    have small := Nat.lt_of_not_le fits
    exact ⟨iff_of_false nofun fits, fun _ => ⟨_, rfl, canonical_word small, value_word small⟩⟩

section Addition

variable (x y : Int127)

theorem value_add : (x.toBoostInt128 + y.toBoostInt128).value =
    x.toBoostInt128.value + y.toBoostInt128.value := by
  have left := x.natAbs_value_lt
  have right := y.natAbs_value_lt
  exact Int128.value_ofInt (by omega)

theorem value_sub : (x.toBoostInt128 - y.toBoostInt128).value =
    x.toBoostInt128.value - y.toBoostInt128.value := by
  have left := x.natAbs_value_lt
  have right := y.natAbs_value_lt
  exact Int128.value_ofInt (by omega)

/-- What a member leaves behind, as a constructor would return it. -/
def outcome : EStateM.Result Int127Exception Int127 Unit → Except Int127Exception Int127
  | .ok _ x => .ok x
  | .error e _ => .error e

end Addition

section Members

/-- A result that is to be stored; an exception leaves the object unchanged. -/
def stored (x : Int127) : Except Int127Exception Int127 → EStateM.Result Int127Exception Int127 Unit
  | .ok result => .ok () result
  | .error e => .error e x

theorem store_eq (value : Except Int127Exception UInt128) (x : Int127) :
    (do set (Int127.mk (← MonadExcept.ofExcept value)) : Member) x =
      stored x (do return ⟨← value⟩) := by
  cases value with
  | error e => rfl
  | ok word => rfl

theorem assignInt128_eq (other : Int128) (x : Int127) : assignInt128 other x = stored x (ofInt128 other) :=
  store_eq _ x

/-- `+=` stores what `+` returns, and throws before it stores. -/
theorem addAssign_eq (x y : Int127) : addAssign y x = stored x (add x y) :=
  store_eq _ x

theorem outcome_stored (x : Int127) (result : Except Int127Exception Int127) :
    outcome (stored x result) = result := by
  cases result with
  | error e => rfl
  | ok y => rfl

theorem stored_error {x left : Int127} {e : Int127Exception} {result : Except Int127Exception Int127}
    (thrown : stored x result = .error e left) : left = x := by
  cases result with
  | error e' =>
    cases thrown
    rfl
  | ok y => cases thrown

end Members

/-- Sums and differences are exact or throw, and `+=` throws without effect. -/
theorem addition_exact (x y : Int127) :
    ExactOrThrows (x.toBoostInt128.value + y.toBoostInt128.value) (add x y) ∧
      ExactOrThrows (x.toBoostInt128.value - y.toBoostInt128.value) (sub x y) ∧
      ExactOrThrows (x.toBoostInt128.value + y.toBoostInt128.value) (outcome (addAssign y x)) ∧
      ∀ e left, addAssign y x = .error e left → left = x := by
  have sum : ExactOrThrows (x.toBoostInt128.value + y.toBoostInt128.value) (add x y) := by
    rw [← value_add]
    exact ofInt128_exact _
  have difference : ExactOrThrows (x.toBoostInt128.value - y.toBoostInt128.value) (sub x y) := by
    rw [← value_sub]
    exact ofInt128_exact _
  rw [addAssign_eq, outcome_stored]
  exact ⟨sum, difference, sum, fun _ _ => stored_error⟩

section Scaling

/-- The check sees one bit of the product, and what the bits above it hold is lost. -/
theorem mulLong_exact_iff (x : Int127) (k : Int64) :
    ExactOrThrows (x.toBoostInt128.value * k.toInt) (mulLong x k) ↔
      (x.toBoostInt128.value * k.toInt).natAbs < 2 ^ 127 ∨
        (x.toBoostInt128.value * k.toInt).natAbs / 2 ^ 127 % 2 = 1 := by
  have truncated : (x.toBoostInt128.mulLong k).value.natAbs =
      (x.toBoostInt128.value * k.toInt).natAbs % 2 ^ 128 := Word.natAbs_signMagnitude 128 _
  rw [mulLong]
  constructor
  · intro exact
    by_contra neither
    have throws := exact.throws.mpr (by omega)
    have large := (ofInt128_exact _).throws.mp throws
    omega
  · rintro (fits | odd)
    · have whole : (x.toBoostInt128.mulLong k).value = x.toBoostInt128.value * k.toInt :=
        Int128.value_ofInt (by omega)
      rw [← whole]
      exact ofInt128_exact _
    · have thrown := (ofInt128_exact (x.toBoostInt128.mulLong k)).throws.mpr (by omega)
      exact ⟨iff_of_true thrown (by omega), fun fits => by omega⟩

/-- The product is `2 ^ 128`; zero is returned. -/
theorem mulLong_not_exact :
    ¬ExactOrThrows ((word (2 ^ 126)).toBoostInt128.value * (4 : Int64).toInt)
        (mulLong (word (2 ^ 126)) 4) ∧
      mulLong (word (2 ^ 126)) 4 = .ok (word 0) := by
  have returned : mulLong (word (2 ^ 126)) 4 = .ok (word 0) := by decide +kernel
  refine ⟨fun exact => ?_, returned⟩
  have thrown := exact.throws.mpr (by decide +kernel)
  rw [returned] at thrown
  cases thrown

end Scaling

section Conversions

/-- An argument of the overloaded constructors and assignments. -/
inductive Source where
  | int (v : Int32)
  | long (v : Int64)
  | unsignedLong (v : UInt64)
  | int128 (v : Int128)

def Source.value : Source → Int
  | int v => v.toInt
  | long v => v.toInt
  | unsignedLong v => v.toNat
  | int128 v => v.value

def construct : Source → Except Int127Exception Int127
  | .int v => .ok (ofInt v)
  | .long v => .ok (ofLong v)
  | .unsignedLong v => .ok (ofUnsignedLong v)
  | .int128 v => ofInt128 v

def assign : Source → Member
  | .int v => assignInt v
  | .long v => assignLong v
  | .unsignedLong v => assignUnsignedLong v
  | .int128 v => assignInt128 v

/-- Both decoders give back an integer. -/
structure Represents (x : Int127) (v : Int) : Prop where
  canonical : x.Canonical
  signed : x.toBoostInt128.value = v
  unsigned : 0 ≤ v → ∃ u, x.toBoostUInt128 = .ok u ∧ (u.toNat : Int) = v
  negative : v < 0 → x.toBoostUInt128 = .error .invalidUInt128Cast

def RoundTrips (v : Source) : Prop :=
  ∃ x, construct v = .ok x ∧ (∀ old, assign v old = .ok () x) ∧ x.Represents v.value

theorem represents_word {v : Int} (fits : v.natAbs < 2 ^ 127) : (word v).Represents v := by
  have sign : (word v).mValue &&& highBitmask ≠ 0 ↔ v < 0 := by
    rw [sign_iff, toNat_word fits, SignMagnitude.sign_encode fits]
  refine ⟨canonical_word fits, value_word fits, fun nonneg => ?_, fun negative => ?_⟩
  · refine ⟨_, if_neg (mt sign.mp (Int.not_lt.mpr nonneg)), ?_⟩
    rw [toNat_word fits, SignMagnitude.encode, if_neg (Int.not_lt.mpr nonneg)]
    exact Int.natAbs_of_nonneg nonneg
  · exact if_pos (sign.mpr negative)

/-- Construction is assignment to any object. -/
theorem assign_eq (v : Source) (old : Int127) : assign v old = stored old (construct v) := by
  cases v with
  | int v => rfl
  | long v => rfl
  | unsignedLong v => rfl
  | int128 v => exact assignInt128_eq v old

theorem roundTrips_of_construct {v : Source} (fits : v.value.natAbs < 2 ^ 127)
    (constructed : construct v = .ok (word v.value)) : RoundTrips v := by
  refine ⟨_, constructed, fun old => ?_, represents_word fits⟩
  rw [assign_eq, constructed]
  rfl

theorem not_roundTrips {v : Source} {x : Int127} (constructed : construct v = .ok x)
    (other : x.toBoostInt128.value ≠ v.value) : ¬RoundTrips v := by
  rintro ⟨y, returned, -, represents⟩
  rw [constructed] at returned
  cases returned
  exact other represents.signed

/-- A negation that does not wrap leaves the magnitude below the sign bit. -/
theorem fromSigned_neg (v : Int) : Int127.mk (fromSigned v (-v)) = word v := by
  rw [fromSigned, word, SignMagnitude.encode]
  split
  next negative =>
    have magnitude : -v = (v.natAbs : Int) := by omega
    rw [magnitude, BitVec.ofInt_natCast, BitVec.ofNat_add, BitVec.add_comm]
    rfl
  next nonneg =>
    have magnitude : v = (v.natAbs : Int) := by omega
    conv_lhs => rw [magnitude, BitVec.ofInt_natCast]

theorem int_neg {v : Int32} (other : v ≠ Int32.minValue) : (-v).toInt = -v.toInt :=
  v.toInt_neg.trans (Word.signed_neg (w := 32) (by decide) ⟨v.le_toInt, v.toInt_lt⟩
    fun least => other (Int32.toInt_inj.mp least))

theorem long_neg {v : Int64} (other : v ≠ Int64.minValue) : (-v).toInt = -v.toInt :=
  v.toInt_neg.trans (Word.signed_neg (w := 64) (by decide) ⟨v.le_toInt, v.toInt_lt⟩
    fun least => other (Int64.toInt_inj.mp least))

theorem not_roundTrips_int : ¬RoundTrips (.int Int32.minValue) :=
  not_roundTrips rfl (by decide +kernel)

theorem not_roundTrips_long : ¬RoundTrips (.long Int64.minValue) :=
  not_roundTrips rfl (by decide +kernel)

/-- The least `int` and the least `long` have no negation in their types; all
other arguments come back from both decoders. -/
theorem roundTrips_iff (v : Source) (fits : v.value.natAbs < 2 ^ 127) :
    RoundTrips v ↔ v ≠ .int Int32.minValue ∧ v ≠ .long Int64.minValue := by
  constructor
  · intro roundTrips
    constructor
    · rintro rfl
      exact not_roundTrips_int roundTrips
    · rintro rfl
      exact not_roundTrips_long roundTrips
  · rintro ⟨notInt, notLong⟩
    apply roundTrips_of_construct fits
    cases v with
    | int v =>
      have negated := int_neg (fun least => notInt (congrArg Source.int least))
      rw [construct, ofInt, negated, fromSigned_neg]
      rfl
    | long v =>
      have negated := long_neg (fun least => notLong (congrArg Source.long least))
      rw [construct, ofLong, negated, fromSigned_neg]
      rfl
    | unsignedLong v => rfl
    | int128 v =>
      rw [construct, ofInt128_eq]
      exact if_neg (Nat.not_le.mpr fits)

theorem roundTrips_minus_one : RoundTrips (.int (-1)) :=
  (roundTrips_iff (.int (-1)) (by decide)).mpr ⟨by simp, nofun⟩

/-- The least `int` and `long` become large positive numbers. -/
theorem roundTrips_least :
    ¬RoundTrips (.int Int32.minValue) ∧ ¬RoundTrips (.long Int64.minValue) ∧
      (ofInt Int32.minValue).toBoostInt128.value = 2 ^ 127 - 2 ^ 31 ∧
      (ofLong Int64.minValue).toBoostInt128.value = 2 ^ 127 - 2 ^ 63 :=
  ⟨not_roundTrips_int, not_roundTrips_long, by decide +kernel, by decide +kernel⟩

end Conversions

end Int127

end Zeppelin.Sketch
