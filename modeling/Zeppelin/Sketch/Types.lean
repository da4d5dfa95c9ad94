import Zeppelin.Machine.Bytes
import Zeppelin.Machine.Word

/-! The two integer configurations of `types.h`, the point update of `update.h`
and the parts of a build that are not integer code: the hash `XXH64` and the two
floating-point size macros. Signed overflow of `+`, `-` and `*`, which C++ leaves
undefined, is two's-complement wrap-around; a division without a value has no
result. -/
namespace Zeppelin.Sketch

/-- `USE_NATIVE_F` selects `native`; otherwise the 128-bit types are used. -/
inductive Config where
  | native
  | wide
  deriving DecidableEq

namespace Config

/-- Bits of `vec_t`: `uint32_t` or `uint64_t`. -/
def vecBits : Config → Nat
  | native => 32
  | wide => 64

/-- Bits of `bucket_t` and `ubucket_t`: 64, or 128 with `__int128`. -/
def bucketBits : Config → Nat
  | native => 64
  | wide => 128

def vec (T : Config) (x : Int) : Nat := Word.unsigned T.vecBits x
def bucket (T : Config) (x : Int) : Int := Word.signed T.bucketBits x
def ubucket (T : Config) (x : Int) : Nat := Word.unsigned T.bucketBits x

/-- Reduction to `bucket_prod_t`. The native type is the two's-complement
`__int128`; the wide one is Boost's `int256_t`, a sign and a 256-bit magnitude. -/
def prod : Config → Int → Int
  | native, x => Word.signed 128 x
  | wide, x => Word.signMagnitude 256 x

def FitsBucket (T : Config) (x : Int) : Prop := Word.FitsSigned T.bucketBits x

def FitsProd : Config → Int → Prop
  | native, x => Word.FitsSigned 128 x
  | wide, x => x.natAbs < 2 ^ 256

instance (T : Config) (x : Int) : Decidable (T.FitsBucket x) :=
  inferInstanceAs (Decidable (Word.FitsSigned T.bucketBits x))

instance (T : Config) (x : Int) : Decidable (T.FitsProd x) :=
  match T with
  | native => inferInstanceAs (Decidable (Word.FitsSigned 128 x))
  | wide => inferInstanceAs (Decidable (x.natAbs < 2 ^ 256))

theorem bucketBits_eq (T : Config) : T.bucketBits = 2 * T.vecBits := by cases T <;> rfl

theorem bucketBits_pos (T : Config) : 0 < T.bucketBits := by cases T <;> decide

theorem prod_eq_self {T : Config} {x : Int} (h : T.FitsProd x) : T.prod x = x := by
  cases T with
  | native => exact Word.signed_eq_self (by decide) h
  | wide => exact Word.signMagnitude_eq_self h

theorem bucket_eq_self {T : Config} {x : Int} (h : T.FitsBucket x) : T.bucket x = x :=
  Word.signed_eq_self T.bucketBits_pos h

theorem vec_eq_self {T : Config} {x : Nat} (h : x < 2 ^ T.vecBits) : T.vec x = x :=
  Word.unsigned_natCast h

theorem ubucket_eq_self {T : Config} {x : Nat} (h : x < 2 ^ T.bucketBits) : T.ubucket x = x :=
  Word.unsigned_natCast h

/-- Every `vec_t` value is a nonnegative `bucket_t` value. -/
theorem fitsBucket_vec {T : Config} {x : Nat} (h : x < 2 ^ T.vecBits) : T.FitsBucket x := by
  have wide : 2 ^ T.vecBits ≤ 2 ^ (T.bucketBits - 1) :=
    Nat.pow_le_pow_right (by decide) (by cases T <;> decide)
  have below : (x : Int) < 2 ^ (T.bucketBits - 1) := by exact_mod_cast h.trans_le wide
  refine ⟨?_, below⟩
  have : (0 : Int) ≤ 2 ^ (T.bucketBits - 1) := by positivity
  omega

/-- One bit of `bucket_prod_t` is its sign in either representation. -/
theorem fitsProd_of_abs_lt {T : Config} {x : Int} (h : |x| < 2 ^ (2 * T.bucketBits - 1)) :
    T.FitsProd x := by
  cases T with
  | native => exact ⟨(abs_lt.mp h).1.le, (abs_lt.mp h).2⟩
  | wide =>
    change x.natAbs < 2 ^ 256
    have bound : (x.natAbs : Int) < 2 ^ 255 := by rw [Int.natCast_natAbs]; exact h
    have below : x.natAbs < 2 ^ 255 := by exact_mod_cast bound
    exact below.trans (by decide)

end Config

/-- `struct Update`: the position that is changed and the magnitude of the
change, a `long`. -/
structure Update where
  index : Nat
  delta : Int64
  deriving DecidableEq

/-- One build of the sketch library. `XXH64` hashes a byte string with a seed.
`bucketGen` and `guessGen` are the macros `bucket_gen` and `guess_gen`, whose
product is an `unsigned`. `shl1 j` is the `int` value of `1 << j`, which C++
defines for `j < 32` only. -/
structure Build where
  types : Config
  XXH64 : List UInt8 → UInt64 → UInt64
  bucketGen : Nat → Nat
  guessGen : Nat → Nat
  shl1 : Nat → BitVec 32
  bucketGen_pos : ∀ n, 0 < bucketGen n
  guessGen_pos : ∀ n, 0 < guessGen n
  grid_unsigned : ∀ n < 2 ^ types.vecBits, bucketGen n * guessGen n < 2 ^ 32
  shl1_eq : ∀ j < 32, shl1 j = 1#32 <<< j

namespace Build

/-- The argument `1 << j` as converted to the parameter type `vec_t`. -/
def guessNonzero (B : Build) (j : Nat) : Nat := B.types.vec (B.shl1 j).toInt

theorem guessNonzero_zero (B : Build) : B.guessNonzero 0 = 1 := by
  rw [guessNonzero, B.shl1_eq 0 (by decide)]
  cases B.types <;> decide

/-- A small build to evaluate: the sizes are the integer parts of the macros, a
shift count is taken modulo 32 as on x86, and the hash adds up its input. -/
def sample (T : Config) : Build where
  types := T
  XXH64 := fun input seed => input.foldl (fun hash byte => hash + byte.toUInt64) seed
  bucketGen := fun n => Nat.log2 n + 1
  guessGen := fun n => Nat.log2 n + 2
  shl1 := fun j => 1#32 <<< (j % 32)
  bucketGen_pos := fun n => Nat.succ_pos _
  guessGen_pos := fun n => Nat.succ_pos _
  grid_unsigned := by
    intro n hn
    have bits : T.vecBits ≤ 64 := by cases T <;> decide
    have small : Nat.log2 n ≤ 64 := by
      by_cases zero : n = 0
      · subst zero
        decide
      · exact ((Nat.log2_lt zero).mpr hn).le.trans bits
    calc (Nat.log2 n + 1) * (Nat.log2 n + 2) ≤ 65 * 66 := Nat.mul_le_mul (by omega) (by omega)
      _ < 2 ^ 32 := by decide
  shl1_eq := fun j hj => by rw [Nat.mod_eq_of_lt hj]

end Build

end Zeppelin.Sketch
