import Mathlib.Data.BitVec

/-!
# Sizes and sums as an `int`

A number that does not fit an `int` is taken modulo `2 ^ 32`, between `-2 ^ 31` and
`2 ^ 31`.
-/
namespace Tarracsh.MachineIntegers

/-- The value of a `size_t` as an `int`. -/
def toInt (n : ℕ) : ℤ := (BitVec.ofNat 32 n).toInt

/-- The value of a sum of `int`s as an `int`. -/
def wrap (n : ℤ) : ℤ := (BitVec.ofInt 32 n).toInt

theorem toInt_of_lt {n : ℕ} (h : n < 2 ^ 31) : toInt n = n := by
  have hnat : (BitVec.ofNat 32 n).toNat = n := by
    rw [BitVec.toNat_ofNat]
    omega
  unfold toInt
  rw [BitVec.toInt_eq_toNat_of_lt (by omega), hnat]

theorem wrap_of_lt {n : ℕ} (h : n < 2 ^ 31) : wrap n = n := by
  have hnat : (BitVec.ofInt 32 (n : ℤ)).toNat = n := by
    rw [BitVec.toNat_ofInt]
    omega
  unfold wrap
  rw [BitVec.toInt_eq_toNat_of_lt (by omega), hnat]

end Tarracsh.MachineIntegers
