import Mathlib.Data.Int.Basic
import Mathlib.Tactic.NormNum

/-!
# C integer arithmetic

Unsigned types are natural numbers below their modulus, `int` is an integer kept in
its 32-bit range. Each operation wraps where the C operation does; the lemmas say
when it does not.
-/

namespace CInt

/-- `a - b` on 32-bit unsigned values. -/
def sub32 (a b : Nat) : Nat := (a + 4294967296 - b % 4294967296) % 4294967296

/-- `a + b` on 32-bit unsigned values. -/
def add32 (a b : Nat) : Nat := (a + b) % 4294967296

/-- `a - b` on `size_t`. -/
def subSize (a b : Nat) : Nat := (a + 18446744073709551616 - b) % 18446744073709551616

/-- `a + b` on `size_t`. -/
def addSize (a b : Nat) : Nat := (a + b) % 18446744073709551616

/-- The value of an `int` that a computation modulo 2^32 leaves. -/
def toInt32 (x : Int) : Int := Int.bmod x 4294967296

/-- The value of an `unsigned` that an `int` converts to. -/
def ofInt32 (x : Int) : Nat := (x % 4294967296).toNat

theorem sub32_eq {a b : Nat} (le : b ≤ a) (bound : a < 4294967296) : sub32 a b = a - b := by
  unfold sub32
  omega

theorem add32_eq {a b : Nat} (bound : a + b < 4294967296) : add32 a b = a + b :=
  Nat.mod_eq_of_lt bound

theorem subSize_eq {a b : Nat} (le : b ≤ a) (bound : a < 18446744073709551616) :
    subSize a b = a - b := by
  unfold subSize
  omega

theorem addSize_eq {a b : Nat} (bound : a + b < 18446744073709551616) : addSize a b = a + b :=
  Nat.mod_eq_of_lt bound

theorem subSize_zero {a : Nat} (bound : a < 18446744073709551616) : subSize a 0 = a :=
  subSize_eq (Nat.zero_le a) bound

theorem toInt32_ofNat {n : Nat} (bound : n < 2147483648) : toInt32 (n : Int) = n := by
  unfold toInt32
  rw [Int.bmod_def]
  split <;> omega

end CInt
