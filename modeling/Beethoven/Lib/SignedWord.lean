import Mathlib.Data.Int.Cast.Basic
import Mathlib.Data.Nat.Cast.Order.Basic
import Mathlib.Algebra.Order.Ring.Int

/-!
# Signed words that hold natural numbers

Arithmetic on signed machine words wraps around. As long as the words hold natural numbers and the
exact result is one that a word can hold, the operations are those on natural numbers.

## Main definitions

* `HoldsNat`: a word holds a natural number.

## Main results

* `HoldsNat.add`, `HoldsNat.sub`, `HoldsNat.mul`, `HoldsNat.div`: exact results.
* `HoldsNat.toNat_toUInt64`, `HoldsNat.of_toInt64`: conversions from and to unsigned words.
-/

namespace Beethoven.Lib

/-- The word is a natural number. -/
def HoldsNat (x : Int64) (n : ℕ) : Prop := x.toInt = n

namespace HoldsNat

variable {x y : Int64} {m n : ℕ}

theorem lt_two_pow (hx : HoldsNat x m) : m < 2 ^ 63 := by
  have h := x.toInt_lt
  unfold HoldsNat at hx
  omega

theorem bmod_eq (h : m < 2 ^ 63) : (m : ℤ).bmod (2 ^ 64) = m :=
  Int.bmod_eq_of_le (by omega) (by omega)

theorem ofNat (h : n < 2 ^ 63) : HoldsNat (.ofNat n) n := Int64.toInt_ofNat_of_lt h

theorem add (hx : HoldsNat x m) (hy : HoldsNat y n) (h : m + n < 2 ^ 63) :
    HoldsNat (x + y) (m + n) := by
  unfold HoldsNat at *
  rw [Int64.toInt_add, hx, hy, ← Nat.cast_add, bmod_eq h]

theorem sub (hx : HoldsNat x m) (hy : HoldsNat y n) (h : n ≤ m) : HoldsNat (x - y) (m - n) := by
  have hlt := hx.lt_two_pow
  unfold HoldsNat at *
  rw [Int64.toInt_sub, hx, hy, ← Nat.cast_sub h, bmod_eq (by omega)]

theorem mul (hx : HoldsNat x m) (hy : HoldsNat y n) (h : m * n < 2 ^ 63) :
    HoldsNat (x * y) (m * n) := by
  unfold HoldsNat at *
  rw [Int64.toInt_mul, hx, hy, ← Nat.cast_mul, bmod_eq h]

theorem div (hx : HoldsNat x m) (hy : HoldsNat y n) : HoldsNat (x / y) (m / n) := by
  have hlt := hx.lt_two_pow
  unfold HoldsNat at *
  rw [Int64.toInt_div, hx, hy, ← Int.ofNat_tdiv,
    bmod_eq (Nat.lt_of_le_of_lt (Nat.div_le_self m n) hlt)]

theorem lt_iff (hx : HoldsNat x m) (hy : HoldsNat y n) : x < y ↔ m < n := by
  unfold HoldsNat at *
  rw [Int64.lt_iff_toInt_lt, hx, hy, Nat.cast_lt]

theorem le_iff (hx : HoldsNat x m) (hy : HoldsNat y n) : x ≤ y ↔ m ≤ n := by
  unfold HoldsNat at *
  rw [Int64.le_iff_toInt_le, hx, hy, Nat.cast_le]

theorem toNat_toUInt64 (hx : HoldsNat x m) : x.toUInt64.toNat = m := by
  have hle : 0 ≤ x := (le_iff (ofNat (by decide)) hx).mpr (Nat.zero_le m)
  unfold HoldsNat at *
  rw [Int64.toNat_toUInt64_of_le hle, Int64.toNatClampNeg, hx, Int.toNat_natCast]

theorem of_toInt64 {u : UInt64} (h : u.toNat < 2 ^ 63) : HoldsNat u.toInt64 u.toNat := by
  have hbits : u.toInt64.toInt = u.toBitVec.toInt := rfl
  have hlt : 2 * u.toBitVec.toNat < 2 ^ 64 := by
    rw [UInt64.toNat_toBitVec]
    omega
  rw [HoldsNat, hbits, BitVec.toInt_eq_toNat_of_lt hlt, UInt64.toNat_toBitVec]

end HoldsNat

end Beethoven.Lib
