import Mathlib.Data.Nat.Bitwise

/-!
# The platform layer

`spreads_pal_get_cpu_number` of `rs/spreads-pal/src/cpu.rs`, one branch per build target.
On Windows the processor group is shifted left by 6 and the number within the group put
below it, so groups are numbered with a stride of 64 (`toInt_windows`). On Linux a failed
`sched_getcpu` becomes `-1`. Every other target answers `-1`.
-/

namespace SpreadsNative

/-- `winnt::PROCESSOR_NUMBER`. -/
structure ProcessorNumber where
  group : UInt16
  number : UInt8
  deriving DecidableEq

/-- What the operating system answers, on each build target. -/
inductive OsCpu where
  /-- `GetCurrentProcessorNumberEx`. -/
  | windows (processorNumber : ProcessorNumber)
  /-- `sched_getcpu`. -/
  | linux (cpuId : Int32)
  | other
  deriving DecidableEq

/-- `spreads_pal_get_cpu_number`. -/
def spreadsPalGetCpuNumber : OsCpu → Int32
  | .windows p => (p.group.toUInt32.toInt32 <<< 6) ||| p.number.toUInt32.toInt32
  | .linux cpuId => if cpuId < 0 then -1 else cpuId
  | .other => -1

/-- Processors are numbered with a stride of 64 per group. -/
theorem toInt_windows (p : ProcessorNumber) (hp : p.number.toNat < 64) :
    (spreadsPalGetCpuNumber (.windows p)).toInt = 64 * p.group.toNat + p.number.toNat := by
  have hg := p.group.toNat_lt
  have hgroup : (p.group.toUInt32.toInt32 <<< 6).toBitVec.toNat = p.group.toNat <<< 6 := by
    have hlt : p.group.toNat <<< 6 < 4294967296 := by
      rw [Nat.shiftLeft_eq]
      omega
    simp [Nat.mod_eq_of_lt hlt]
  have hnumber : p.number.toUInt32.toInt32.toBitVec.toNat = p.number.toNat := by
    simp
  have hnat : (spreadsPalGetCpuNumber (.windows p)).toBitVec.toNat =
      64 * p.group.toNat + p.number.toNat := by
    -- the number is below the stride, so the `|` of the code is a sum
    rw [spreadsPalGetCpuNumber, Int32.toBitVec_or, BitVec.toNat_or, hgroup, hnumber,
      ← Nat.shiftLeft_add_eq_or_of_lt (i := 6) hp, Nat.shiftLeft_eq]
    omega
  rw [← Int32.toInt_toBitVec, BitVec.toInt_eq_toNat_of_lt (by rw [hnat]; omega), hnat]
  push_cast
  rfl

end SpreadsNative
