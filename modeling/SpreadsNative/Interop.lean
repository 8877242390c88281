import Mathlib.Data.Int.Basic

/-!
# What crosses the border

An extern of `dotnet/src/Spreads.Native/Mem.cs` and the function of `rs/src/mem_allocation.rs`
it calls may mean types of two widths by one value. The side that passes it sets the lower
part of a register only, and the other side reads more.

* A native `bool` is one byte. An extern that returns `bool` has no `MarshalAs`, so .NET reads
  a `BOOL` of four (`readBool`). The other way nothing is lost : of the 0 or 1 that .NET passes
  the native side reads the low byte.
* A C# `int` is passed for a `c_long`, which has 64 bits on Linux and macOS (`passInt`), and a
  `c_long` is returned for an `int` (`readInt`).

What the rest of the register holds is a parameter here, so what is proved holds whatever it
is. A `c_long` of 32 bits, as on Windows, is one whose upper half extends the sign.
-/

namespace SpreadsNative

/-- What .NET reads where the native side returns `b`, and the three upper bytes hold `upper`. -/
def readBool (b : Bool) (upper : BitVec 24) : Bool :=
  (upper ++ (BitVec.ofBool b).setWidth 8 : BitVec 32) ≠ 0

/-- What the native side reads where .NET passes `value`, and the upper half holds `upper`. -/
def passInt (value : Int32) (upper : BitVec 32) : ℤ :=
  (upper ++ value.toBitVec : BitVec 64).toInt

/-- What .NET reads where the native side returns a `c_long`. -/
def readInt (value : ℤ) : Int32 :=
  .ofInt value

/-- With clear upper bytes a `bool` is read as it is. -/
@[simp] theorem readBool_zero (b : Bool) : readBool b 0 = b := by
  cases b <;> rfl

/-- With a clear upper half an `int` that is not negative is passed as it is. -/
theorem passInt_zero {value : Int32} (h : 0 ≤ value) : passInt value 0 = value.toInt := by
  have hlt : 2 * value.toBitVec.toNat < 2 ^ 32 :=
    BitVec.toInt_pos_iff.mp (Int32.le_iff_toInt_le.mp h)
  have hnat : ((0 : BitVec 32) ++ value.toBitVec : BitVec 64).toNat = value.toBitVec.toNat := by
    rw [BitVec.toNat_append]
    simp
  rw [passInt, BitVec.toInt_eq_toNat_of_lt, hnat, ← BitVec.toInt_eq_toNat_of_lt hlt]
  · rfl
  · rw [hnat]
    omega

end SpreadsNative
