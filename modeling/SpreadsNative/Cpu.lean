import SpreadsNative.Machine
import Mathlib.Data.Nat.Bitwise

/-!
# The per-thread core id cache

`dotnet/src/Spreads.Native/Cpu.cs`. Each thread has one thread-static `Int32`. Its upper
16 bits are the core id of the last refresh, its lower 16 bits count down to the next
one. `getCurrentCoreId` decrements the word before it looks at the old value, and
`refreshCurrentCoreId` overwrites the decremented word.

`Env` is what the code reads and never writes : `CoreCount`, the managed thread id, and
the outcome of each call into the native library, in call order. `Thread` is what it
writes : the word, and how many native calls the thread has made. A native call is made
by `refreshCurrentCoreId` only, so that count is the number of its executions.

`Build` is the compilation mode : a Debug build is compiled with
`CheckForOverflowUnderflow`, so its decrement throws on overflow.
-/

namespace SpreadsNative

/-- A C# `OverflowException`. -/
inductive OverflowException where
  | overflow
  deriving DecidableEq

/-- The two configurations of `Directory.Build.props`. -/
inductive Build where
  /-- `CheckForOverflowUnderflow` is set. -/
  | debug
  | release
  deriving DecidableEq

/-- `x--` on an `int`. -/
def Build.decrement : Build → Int32 → Except OverflowException Int32
  | .debug, x => if x = Int32.minValue then .error .overflow else .ok (x - 1)
  | .release, x => .ok (x - 1)

namespace Cpu

/-- `Cpu.MaxCores`. -/
def maxCores : Int32 := 128

/-- `Cpu.CacheShift`. -/
def cacheShift : Int32 := 16

/-- `Cpu.CacheCountDownMask`. -/
def cacheCountDownMask : Int32 := ((1 : Int32) <<< cacheShift) - 1

/-- `Cpu.RefreshRate`. -/
def refreshRate : Int32 := 100

/-- `Cpu.CoreCount` : positive, and capped at `MaxCores`. -/
structure CoreCount where
  val : Int32
  pos : 0 < val
  le : val ≤ maxCores

/-- `CoreCount = Math.Min(Environment.ProcessorCount, MaxCores)`. -/
def CoreCount.ofProcessorCount (processorCount : Int32) (h : 0 < processorCount) : CoreCount where
  val := if processorCount ≤ maxCores then processorCount else maxCores
  pos := by
    split_ifs
    · exact h
    · decide
  le := by
    split_ifs with hle
    · exact hle
    · decide

/-- `Environment.CurrentManagedThreadId` : positive. -/
structure ManagedThreadId where
  val : Int32
  pos : 0 < val

/-- What a thread's calls read and never write. -/
structure Env where
  coreCount : CoreCount
  currentManagedThreadId : ManagedThreadId
  /-- The outcome of the thread's `n`-th `spreads_pal_get_cpu_number`. `none` if it throws. -/
  pal : ℕ → Option Int32

/-- What a thread's calls write. -/
structure Thread where
  /-- The thread-static word. -/
  currentProcessorIdCache : Int32
  /-- The number of native calls so far. -/
  nativeCalls : ℕ
  deriving DecidableEq

/-- A new thread. A thread-static field starts at zero. -/
def Thread.fresh : Thread where
  currentProcessorIdCache := 0
  nativeCalls := 0

/-- `Cpu.get_cpu_number` : every exception becomes `-1`. -/
def getCpuNumber : Option Int32 → Int32
  | some n => n
  | none => -1

/-- `Cpu.RefreshCurrentCoreId`. -/
def refreshCurrentCoreId (env : Env) (t : Thread) : Int32 × Thread :=
  let currentProcessorId := getCpuNumber (env.pal t.nativeCalls)
  let currentProcessorId :=
    if currentProcessorId < 0 then env.currentManagedThreadId.val else currentProcessorId
  let currentProcessorId :=
    if currentProcessorId ≥ env.coreCount.val then currentProcessorId % env.coreCount.val
    else currentProcessorId
  (currentProcessorId,
    { currentProcessorIdCache :=
        ((currentProcessorId <<< cacheShift) &&& Int32.maxValue) ||| refreshRate
      nativeCalls := t.nativeCalls + 1 })

/-- `Cpu.GetCurrentCoreId`. -/
def getCurrentCoreId (build : Build) (env : Env) (t : Thread) :
    Except OverflowException (Int32 × Thread) := do
  let currentProcessorIdCache := t.currentProcessorIdCache
  -- the decremented word is what a refresh overwrites
  let t := { t with currentProcessorIdCache := ← build.decrement currentProcessorIdCache }
  if currentProcessorIdCache &&& cacheCountDownMask = 0 then
    return refreshCurrentCoreId env t
  else
    return (currentProcessorIdCache >>> cacheShift, t)

/-- `Cpu.FlushCurrentCpuId`. -/
def flushCurrentCpuId (t : Thread) : Thread :=
  { t with currentProcessorIdCache := t.currentProcessorIdCache &&& (~~~cacheCountDownMask ||| 1) }

/-! ## Runs of calls -/

/-- A call of the public interface. -/
inductive Call where
  | getCurrentCoreId
  | flushCurrentCpuId
  deriving DecidableEq

/-- What a `GetCurrentCoreId` shows. -/
structure Got where
  value : Int32
  /-- It executed `RefreshCurrentCoreId`. -/
  refreshed : Bool
  deriving DecidableEq

/-- One call on a thread. Only a `GetCurrentCoreId` shows anything. -/
def call (build : Build) (env : Env) (t : Thread) :
    Call → Except OverflowException (List Got × Thread)
  | .getCurrentCoreId => do
    let (value, t') ← Cpu.getCurrentCoreId build env t
    return ([⟨value, t'.nativeCalls ≠ t.nativeCalls⟩], t')
  | .flushCurrentCpuId => return ([], Cpu.flushCurrentCpuId t)

/-- A thread as a machine. -/
def thread (build : Build) (env : Env) : Fallible OverflowException Thread Call Got where
  step := call build env

end Cpu

end SpreadsNative
