import Mathlib.Algebra.GroupWithZero.Nat
import Mathlib.Algebra.Order.Group.Int
import Mathlib.Algebra.Ring.Int.Defs

/-!
# Conversions between the integer types of C

A value that an `int` of 32 bits can hold is converted to itself, and one that it cannot is taken
modulo `2 ^ 32`, into its range.
-/

namespace CInts

/-- Conversion to an `int`. -/
def toInt (v : Int) : Int := v.bmod (2 ^ 32)

/-- Conversion to a `uint16_t`. -/
def u16 (v : Int) : Nat := (v % 65536).toNat

theorem toInt_of_lt {v : Int} (h0 : -2 ^ 31 ≤ v) (h : v < 2 ^ 31) : toInt v = v := by
  unfold toInt
  apply Int.bmod_eq_of_le
  · omega
  · omega

theorem toInt_of_ge {v : Int} (h : 2 ^ 31 ≤ v) (h' : v < 2 ^ 32) : toInt v = v - 2 ^ 32 := by
  have hv : toInt v = toInt (v - 2 ^ 32) := by
    unfold toInt
    exact (Int.sub_bmod_right v (2 ^ 32)).symm
  rw [hv, toInt_of_lt (by omega) (by omega)]

theorem toInt_lt (v : Int) : toInt v < 2 ^ 31 := by
  have h := Int.bmod_lt (x := v) (m := 2 ^ 32) (by decide)
  unfold toInt
  omega

theorem neg_le_toInt (v : Int) : -2 ^ 31 ≤ toInt v := by
  have h := Int.le_bmod (x := v) (m := 2 ^ 32) (by decide)
  unfold toInt
  omega

/-- A number that is not negative keeps its value up to the largest `int`. -/
theorem toInt_natCast_iff (n : Nat) : toInt n = n ↔ n < 2 ^ 31 := by
  constructor
  · intro h
    have hlt := toInt_lt n
    omega
  · intro h
    exact toInt_of_lt (by omega) (by omega)

/-- By the value modulo `2 ^ 32`. -/
theorem toInt_eq_emod (v : Int) : toInt v = if v % 2 ^ 32 < 2 ^ 31 then v % 2 ^ 32 else v % 2 ^ 32 - 2 ^ 32 := by
  unfold toInt Int.bmod
  rfl

end CInts
