import Mathlib.Data.List.Basic

/-! Decimal numerals as bytes, most significant digit first. Leading zeros are
allowed, and the empty numeral is zero. -/
namespace Zeppelin.Decimal

/-- `'0'` to `'9'`. -/
def isDigit (byte : UInt8) : Bool := 48 ≤ byte && byte ≤ 57

/-- `isspace` in the default locale. -/
def isSpace (byte : UInt8) : Bool := byte = 32 || (9 ≤ byte && byte ≤ 13)

def digit (byte : UInt8) : Nat := (byte - 48).toNat

/-- A number continued by the digits of a numeral. -/
def extend (n : Nat) (bytes : List UInt8) : Nat := bytes.foldl (fun n byte => n * 10 + digit byte) n

def value (bytes : List UInt8) : Nat := extend 0 bytes

def Digits (bytes : List UInt8) : Prop := ∀ byte ∈ bytes, isDigit byte = true

instance (bytes : List UInt8) : Decidable (Digits bytes) := List.decidableBAll _ bytes

/-- The text of a number below a bound. -/
structure Numeral (bound : Nat) where
  bytes : List UInt8
  digits : Digits bytes
  nonempty : bytes ≠ []
  below : value bytes < bound

def Numeral.value {bound : Nat} (n : Numeral bound) : Nat := Decimal.value n.bytes

@[simp]
theorem extend_nil (n : Nat) : extend n [] = n := rfl

@[simp]
theorem extend_cons (n : Nat) (byte : UInt8) (bytes : List UInt8) :
    extend n (byte :: bytes) = extend (n * 10 + digit byte) bytes := rfl

theorem Digits.tail {byte : UInt8} {bytes : List UInt8} (digits : Digits (byte :: bytes)) :
    Digits bytes :=
  fun later member => digits later (List.mem_cons_of_mem byte member)

theorem not_isSpace {byte : UInt8} (digit : isDigit byte = true) : isSpace byte = false := by
  simp only [isDigit, Bool.and_eq_true, decide_eq_true_eq, UInt8.le_iff_toNat_le] at digit
  simp only [isSpace, Bool.or_eq_false_iff, Bool.and_eq_false_iff, decide_eq_false_iff_not,
    UInt8.le_iff_toNat_le, ← UInt8.toNat_inj]
  have low : (48 : UInt8).toNat = 48 := rfl
  have blank : (32 : UInt8).toNat = 32 := rfl
  have last : (13 : UInt8).toNat = 13 := rfl
  omega

section Scanning

variable {bytes rest : List UInt8} {stop : UInt8}

/-- A scan of digits takes a numeral that a byte which is no digit ends. -/
theorem takeWhile_numeral (digits : Digits bytes) (ends : isDigit stop = false) :
    (bytes ++ stop :: rest).takeWhile isDigit = bytes := by
  rw [List.takeWhile_append_of_pos digits, List.takeWhile_cons_of_neg (by simp [ends]),
    List.append_nil]

theorem dropWhile_numeral (digits : Digits bytes) (ends : isDigit stop = false) :
    (bytes ++ stop :: rest).dropWhile isDigit = stop :: rest := by
  rw [List.dropWhile_append_of_pos digits, List.dropWhile_cons_of_neg (by simp [ends])]

end Scanning

end Zeppelin.Decimal
