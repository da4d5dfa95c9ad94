import Zeppelin.Sketch.Types
import Mathlib.Data.Nat.ModEq
import Mathlib.Data.Nat.Log

/-! `prime_generator.h`: square-and-multiply exponentiation, its cached variant,
the witness test and the prime search. Loops carry a fuel argument that bounds
the number of iterations; for the prime search `none` is a search that never
returns. A read past the end of the cache is `none` as well. -/
namespace Zeppelin.Sketch

/-- `static_cast<ubucket_t>(static_cast<ubucket_prod_t>(x) * y % m)`. -/
def Config.mulMod (T : Config) (x y m : Nat) : Nat :=
  T.ubucket (Word.unsigned (2 * T.bucketBits) ((x : Int) * y) % m : Nat)

namespace PrimeGenerator

def powermodLoop (T : Config) (m : Nat) : Nat → Nat → Nat → Nat → Nat
  | 0, res, _, _ => res
  | fuel + 1, res, a, b =>
    if b = 0 then res
    else
      let res := if b % 2 = 1 then T.mulMod res a m else res
      powermodLoop T m fuel res (T.mulMod a a m) (b / 2)

/-- The exponent is at least halved by an iteration, so `b` iterations suffice. -/
def powermod (T : Config) (a b m : Nat) : Nat := powermodLoop T m b 1 a b

/-- The `ubucket_prod_t` products that `powermodLoop` reduces, in order. -/
def powermodProducts (T : Config) (m : Nat) : Nat → Nat → Nat → Nat → List Nat
  | 0, _, _, _ => []
  | fuel + 1, res, a, b =>
    if b = 0 then []
    else
      let multiplied := if b % 2 = 1 then [res * a] else []
      let res := if b % 2 = 1 then T.mulMod res a m else res
      multiplied ++ a * a :: powermodProducts T m fuel res (T.mulMod a a m) (b / 2)

/-- The loop `sq_cache[i + 1] = sq_cache[i] * sq_cache[i] % m`. -/
def sqCacheLoop (T : Config) (m log2n : Nat) (sqCache : List Nat) : List Nat :=
  (List.range log2n).foldl
    (fun cache i => cache.set (i + 1) (T.mulMod (cache.getD i 0) (cache.getD i 0) m)) sqCache

/-- `log2` is the integer floor of the logarithm. -/
def genSqCache (T : Config) (a n m : Nat) : List Nat :=
  let log2n := Nat.log 2 n
  sqCacheLoop T m log2n ((List.replicate (log2n + 1) 0).set 0 a)

def cachedPowermodLoop (T : Config) (sqCache : List Nat) (m : Nat) :
    Nat → Nat → Nat → Nat → Option Nat
  | 0, _, res, _ => some res
  | fuel + 1, i, res, b =>
    if b = 0 then some res
    else do
      let res ← if b % 2 = 1 then (sqCache[i]?).map (T.mulMod res · m) else some res
      cachedPowermodLoop T sqCache m fuel (i + 1) res (b / 2)

def cachedPowermod (T : Config) (sqCache : List Nat) (b m : Nat) : Option Nat :=
  cachedPowermodLoop T sqCache m b 0 1 b

/-- `while (d % 2 != 0)`, as the source has it: the loop halves while `d` is odd. -/
def splitLoop : Nat → Nat → Nat → Nat × Nat
  | 0, d, m => (d, m)
  | fuel + 1, d, m => if d % 2 ≠ 0 then splitLoop fuel (d / 2) (m + 1) else (d, m)

def witnesses : List Nat := [2, 3, 5, 7, 11, 13, 17, 19, 23, 29, 31, 37]

/-- The loop `for (int j = 1; j < m; j++)`; the first argument is the number of
iterations left. -/
def approveLoop (T : Config) (n d : Nat) : Nat → Nat → Bool
  | 0, _ => false
  | left + 1, temp =>
    let temp := T.ubucket ((temp : Int) * temp)
    let result := powermod T temp d n
    if result = 1 ∨ result = n - 1 then true else approveLoop T n d left temp

def witnessLoop (T : Config) (n d m : Nat) : List Nat → Bool
  | [] => true
  | witness :: rest =>
    if n ≤ witness then true
    else
      let result := powermod T witness d n
      if result = 1 ∨ result = n - 1 then witnessLoop T n d m rest
      else if approveLoop T n d (m - 1) witness then witnessLoop T n d m rest
      else false

def isPrime (T : Config) (n : Nat) : Bool :=
  if n = 2 then true
  else if n < 2 ∨ n % 2 = 0 then false
  else
    let (d, m) := splitLoop (n - 1) (n - 1) 0
    witnessLoop T n d m witnesses

def generatePrimeLoop (T : Config) : Nat → Nat → Option Nat
  | 0, _ => none
  | fuel + 1, n =>
    if isPrime T n then some n else generatePrimeLoop T fuel (T.ubucket ((n : Int) + 2))

/-- A search of more than `2 ^ bucketBits` steps repeats a candidate, so the fuel
never cuts off a search that would return. -/
def generatePrime (T : Config) (n : Nat) : Option Nat :=
  let n := if n % 2 = 0 then T.ubucket ((n : Int) + 1) else n
  generatePrimeLoop T (2 ^ T.bucketBits) n

section Exponentiation

variable {T : Config} {m : Nat}

theorem mul_lt_prod {x y : Nat} (hx : x < 2 ^ T.bucketBits) (hy : y < 2 ^ T.bucketBits) :
    x * y < 2 ^ (2 * T.bucketBits) := by
  rw [two_mul, pow_add]
  exact Nat.mul_lt_mul'' hx hy

theorem mulMod_eq {x y : Nat} (hx : x < 2 ^ T.bucketBits) (hy : y < 2 ^ T.bucketBits)
    (positive : 0 < m) (hm : m < 2 ^ T.bucketBits) : T.mulMod x y m = x * y % m := by
  have exact : Word.unsigned (2 * T.bucketBits) ((x : Int) * y) = x * y := by
    rw [← Nat.cast_mul, Word.unsigned_natCast (mul_lt_prod hx hy)]
  rw [Config.mulMod, exact, Config.ubucket_eq_self ((Nat.mod_lt _ positive).trans hm)]

theorem mulMod_lt (x y : Nat) (positive : 0 < m) (hm : m < 2 ^ T.bucketBits) :
    T.mulMod x y m < m := by
  rw [Config.mulMod, Config.ubucket_eq_self ((Nat.mod_lt _ positive).trans hm)]
  exact Nat.mod_lt _ positive

/-- The loop invariant: the accumulator times the remaining power of the current
base is unchanged modulo `m`. -/
theorem powermodLoop_modEq (positive : 0 < m) (hm : m < 2 ^ T.bucketBits) {fuel res a b : Nat}
    (hres : res < 2 ^ T.bucketBits) (ha : a < 2 ^ T.bucketBits) (enough : b ≤ fuel) :
    powermodLoop T m fuel res a b ≡ res * a ^ b [MOD m] := by
  induction fuel generalizing res a b with
  | zero =>
    obtain rfl : b = 0 := by omega
    rw [powermodLoop, pow_zero, mul_one]
  | succ fuel ih =>
    rw [powermodLoop]
    by_cases done : b = 0
    · rw [if_pos done, done, pow_zero, mul_one]
    · rw [if_neg done]
      have squared : T.mulMod a a m = a * a % m := mulMod_eq ha ha positive hm
      have small : T.mulMod a a m < 2 ^ T.bucketBits := (mulMod_lt a a positive hm).trans hm
      have halves : (a * a % m) ^ (b / 2) ≡ a ^ (2 * (b / 2)) [MOD m] := by
        rw [pow_mul, sq]
        exact (Nat.mod_modEq (a * a) m).pow _
      by_cases odd : b % 2 = 1
      · have step : T.mulMod res a m = res * a % m := mulMod_eq hres ha positive hm
        have below : T.mulMod res a m < 2 ^ T.bucketBits := (mulMod_lt res a positive hm).trans hm
        simp only [if_pos odd]
        refine (ih below small (by omega)).trans ?_
        rw [step, squared]
        have split : b = 2 * (b / 2) + 1 := by omega
        calc res * a % m * (a * a % m) ^ (b / 2)
            ≡ res * a * a ^ (2 * (b / 2)) [MOD m] := (Nat.mod_modEq _ _).mul halves
          _ = res * a ^ b := by rw [mul_assoc, ← pow_succ', ← split]
      · simp only [if_neg odd]
        refine (ih hres small (by omega)).trans ?_
        rw [squared]
        have split : b = 2 * (b / 2) := by omega
        calc res * (a * a % m) ^ (b / 2) ≡ res * a ^ (2 * (b / 2)) [MOD m] := halves.mul_left res
          _ = res * a ^ b := by rw [← split]

theorem powermodLoop_lt (positive : 0 < m) (hm : m < 2 ^ T.bucketBits) {fuel res a b : Nat}
    (hres : res < m) : powermodLoop T m fuel res a b < m := by
  induction fuel generalizing res a b with
  | zero => exact hres
  | succ fuel ih =>
    rw [powermodLoop]
    split
    · exact hres
    · apply ih
      split
      · exact mulMod_lt _ _ positive hm
      · exact hres

/-- `powermod` is modular exponentiation, also for a base that is not reduced. -/
theorem powermod_eq {a b : Nat} (hm2 : 2 ≤ m) (hm : m < 2 ^ T.bucketBits)
    (ha : a < 2 ^ T.bucketBits) : powermod T a b m = a ^ b % m := by
  have one : 1 < 2 ^ T.bucketBits := by omega
  have congruent := powermodLoop_modEq (by omega) hm one ha (le_refl b)
  have below : powermod T a b m < m := powermodLoop_lt (by omega) hm (by omega)
  rw [one_mul] at congruent
  calc powermod T a b m = powermod T a b m % m := (Nat.mod_eq_of_lt below).symm
    _ = a ^ b % m := congruent

/-- Accumulator and base stay `ubucket_t` values, so no product of two leaves
`ubucket_prod_t`. -/
theorem powermodProducts_lt (positive : 0 < m) (hm : m < 2 ^ T.bucketBits) {fuel res a b : Nat}
    (hres : res < 2 ^ T.bucketBits) (ha : a < 2 ^ T.bucketBits) :
    ∀ product ∈ powermodProducts T m fuel res a b, product < 2 ^ (2 * T.bucketBits) := by
  induction fuel generalizing res a b with
  | zero => nofun
  | succ fuel ih =>
    rw [powermodProducts]
    split
    · nofun
    · have reduced (x : Nat) : T.mulMod x a m < 2 ^ T.bucketBits :=
        (mulMod_lt x a positive hm).trans hm
      intro product member
      rcases List.mem_append.mp member with multiplied | squared
      · split at multiplied
        · rw [List.mem_singleton.mp multiplied]
          exact mul_lt_prod hres ha
        · cases multiplied
      · rcases List.mem_cons.mp squared with rfl | later
        · exact mul_lt_prod ha ha
        · refine ih ?_ (reduced a) product later
          split
          · exact reduced res
          · exact hres

/-- Exact at full width, for any base and any modulus above 1. -/
theorem powermod_exact (T : Config) (a b m : Nat) (ha : a < 2 ^ T.bucketBits) (large : 2 ≤ m)
    (hm : m < 2 ^ T.bucketBits) :
    powermod T a b m = a ^ b % m ∧
      ∀ product ∈ powermodProducts T m b 1 a b, product < 2 ^ (2 * T.bucketBits) := by
  refine ⟨powermod_eq large hm ha, powermodProducts_lt (by omega) hm ?_ ha⟩
  exact Nat.one_lt_two_pow T.bucketBits_pos.ne'

/-- The largest base and modulus of the 128-bit types. -/
theorem powermod_exact_top :
    powermod .wide (2 ^ 128 - 1) 3 (2 ^ 128 - 1) = (2 ^ 128 - 1) ^ 3 % (2 ^ 128 - 1) ∧
      ∀ product ∈ powermodProducts .wide (2 ^ 128 - 1) 3 1 (2 ^ 128 - 1) 3,
        product < 2 ^ (2 * Config.wide.bucketBits) :=
  powermod_exact .wide (2 ^ 128 - 1) 3 (2 ^ 128 - 1) (by decide) (by decide) (by decide)

theorem powermod_lt (a b : Nat) (hm2 : 2 ≤ m) (hm : m < 2 ^ T.bucketBits) :
    powermod T a b m < m :=
  powermodLoop_lt (by omega) hm (by omega)

end Exponentiation

section Cache

variable (T : Config) (a m : Nat)

/-- The base of `powermod` after `i` iterations. -/
def squarings : Nat → Nat
  | 0 => a
  | i + 1 => T.mulMod (squarings i) (squarings i) m

theorem sqCacheLoop_succ (count : Nat) (cache : List Nat) :
    sqCacheLoop T m (count + 1) cache =
      (sqCacheLoop T m count cache).set (count + 1)
        (T.mulMod ((sqCacheLoop T m count cache).getD count 0)
          ((sqCacheLoop T m count cache).getD count 0) m) := by
  simp only [sqCacheLoop, List.range_succ, List.foldl_append, List.foldl_cons, List.foldl_nil]

theorem sqCacheLoop_length (count : Nat) (cache : List Nat) :
    (sqCacheLoop T m count cache).length = cache.length := by
  induction count with
  | zero => rfl
  | succ count ih => rw [sqCacheLoop_succ, List.length_set, ih]

theorem sqCacheLoop_get {cache : List Nat} {count i : Nat} (first : cache[0]? = some a)
    (room : count < cache.length) (within : i ≤ count) :
    (sqCacheLoop T m count cache)[i]? = some (squarings T a m i) := by
  induction count generalizing i with
  | zero =>
    obtain rfl : i = 0 := by omega
    exact first
  | succ count ih =>
    have last := ih (by omega) (le_refl count)
    rw [sqCacheLoop_succ, List.getD_eq_getElem?_getD, last, Option.getD_some]
    by_cases fresh : i = count + 1
    · subst fresh
      rw [List.getElem?_set_self (by rw [sqCacheLoop_length]; exact room), squarings]
    · rw [List.getElem?_set_ne (Ne.symm fresh)]
      exact ih (by omega) (by omega)

theorem genSqCache_get {n i : Nat} (within : i ≤ Nat.log 2 n) :
    (genSqCache T a n m)[i]? = some (squarings T a m i) := by
  apply sqCacheLoop_get
  · simp
  · simp
  · exact within

/-- The cached loop at bit `i` is the plain loop at the `i`-th squaring; the
invariant `b * 2 ^ i ≤ n` keeps every read inside the cache. -/
theorem cachedPowermodLoop_eq {n fuel i res b : Nat} (bound : b * 2 ^ i ≤ n) :
    cachedPowermodLoop T (genSqCache T a n m) m fuel i res b =
      some (powermodLoop T m fuel res (squarings T a m i) b) := by
  induction fuel generalizing i res b with
  | zero => rfl
  | succ fuel ih =>
    rw [cachedPowermodLoop, powermodLoop]
    by_cases done : b = 0
    · rw [if_pos done, if_pos done]
    · rw [if_neg done, if_neg done]
      have power : 2 ^ i ≤ n := le_trans (Nat.le_mul_of_pos_left _ (by omega)) bound
      have read := genSqCache_get T a m (Nat.le_log_of_pow_le (by decide) power)
      have next : b / 2 * 2 ^ (i + 1) ≤ n := by
        refine le_trans ?_ bound
        rw [pow_succ, mul_comm (2 ^ i) 2, ← mul_assoc]
        exact Nat.mul_le_mul_right _ (Nat.div_mul_le_self b 2)
      by_cases odd : b % 2 = 1
      · simp only [if_pos odd, read, Option.map_some, Option.bind_eq_bind, Option.bind_some]
        exact ih next
      · simp only [if_neg odd, Option.bind_eq_bind, Option.bind_some]
        exact ih next

theorem cachedPowermod_eq {n b : Nat} (bound : b ≤ n) :
    cachedPowermod T (genSqCache T a n m) b m = some (powermod T a b m) :=
  cachedPowermodLoop_eq T a m (by simpa using bound)

end Cache

end PrimeGenerator
end Zeppelin.Sketch
