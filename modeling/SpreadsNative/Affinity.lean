import SpreadsNative.Schedule
import SpreadsNative.Arcs
import Mathlib.Algebra.BigOperators.Fin
import Mathlib.Data.Fintype.BigOperators
import Mathlib.Data.Fintype.EquivFin
import Mathlib.Algebra.Order.BigOperators.Group.List

/-!
# Which processors share an id

The id of a processor is its native CPU number modulo `CoreCount` (`toInt_idOn`). Three
cases in which more can be said :

* The processors are numbered from zero without gaps, as on Linux or with full processor
  groups on Windows. The cap at `MaxCores` then folds them evenly (`capped_balanced`).
* The process may run on a set of Linux CPUs only, a list of ranges. `CoreCount` counts
  these, but they keep their numbers, so two ranges may overlap (`Cpuset.coreId_distinct_iff`).
* Threads stay on distinct processors numbered below `CoreCount`. No two of them are ever
  shown one id (`pinned_exclusive`).
-/

open Finset

namespace SpreadsNative

namespace Cpu

/-- The id of a processor is its number modulo `CoreCount`. -/
theorem toInt_idOn (coreCount : CoreCount) (tid : ManagedThreadId) {cpu : Int32} {n : ℕ}
    (h : cpu.toInt = n) :
    (idOn coreCount tid (some cpu)).toInt = (n : ℤ) % coreCount.val.toInt := by
  have hraw : rawId (envOn coreCount tid (some cpu)) 0 = cpu := by
    refine if_neg ?_
    change ¬ cpu < 0
    rw [Int32.lt_iff_toInt_lt, h]
    exact not_lt.mpr (Int.natCast_nonneg n)
  rw [idOn, refreshCurrentCoreId_fst, toInt_normalizedId,
    show Thread.fresh.nativeCalls = 0 from rfl, hraw, h]
  rfl

/-! ## Numbering without gaps -/

/-- Processor `i` on Linux. -/
def linuxCpu (i : ℕ) : OsCpu :=
  .linux (.ofNat i)

/-- Processor `i` on Windows, if all groups before its own are full. -/
def windowsCpu (i : ℕ) : OsCpu :=
  .windows ⟨.ofNat (i / 64), .ofNat (i % 64)⟩

theorem toInt_linuxCpu {i : ℕ} (h : i < 2 ^ 31) :
    (spreadsPalGetCpuNumber (linuxCpu i)).toInt = i := by
  have hi : (Int32.ofNat i).toInt = i := Int32.toInt_ofNat_of_lt h
  have hneg : ¬ Int32.ofNat i < 0 := by
    rw [Int32.lt_iff_toInt_lt, hi]
    exact not_lt.mpr (Int.natCast_nonneg i)
  rw [linuxCpu, spreadsPalGetCpuNumber, if_neg hneg, hi]

theorem toInt_windowsCpu {i : ℕ} (h : i < 2 ^ 22) :
    (spreadsPalGetCpuNumber (windowsCpu i)).toInt = i := by
  have hgroup : (UInt16.ofNat (i / 64)).toNat = i / 64 :=
    UInt16.toNat_ofNat_of_lt (show i / 64 < 65536 by omega)
  have hnumber : (UInt8.ofNat (i % 64)).toNat = i % 64 :=
    UInt8.toNat_ofNat_of_lt (show i % 64 < 256 by omega)
  rw [windowsCpu, toInt_windows _ (by rw [hnumber]; exact Nat.mod_lt i (by omega)), hgroup,
    hnumber]
  exact_mod_cast Nat.div_add_mod i 64

/-- Up to `processorCount` the processors are numbered from zero without gaps. -/
def Gapless (processorCount : Int32) (cpu : ℕ → OsCpu) : Prop :=
  ∀ i : ℕ, (i : ℤ) < processorCount.toInt → (spreadsPalGetCpuNumber (cpu i)).toInt = i

theorem gapless_linuxCpu (processorCount : Int32) : Gapless processorCount linuxCpu := by
  intro i hi
  have := processorCount.toInt_lt
  exact toInt_linuxCpu (by omega)

theorem gapless_windowsCpu {processorCount : Int32} (h : processorCount.toInt ≤ 2 ^ 22) :
    Gapless processorCount windowsCpu :=
  fun i hi => toInt_windowsCpu (by omega)

theorem CoreCount.toInt_ofProcessorCount {processorCount : Int32} (h : 0 < processorCount) :
    (CoreCount.ofProcessorCount processorCount h).val.toInt = min processorCount.toInt 128 := by
  rw [CoreCount.ofProcessorCount]
  split_ifs with hle
  · exact (min_eq_left (Int32.le_iff_toInt_le.mp hle)).symm
  · rw [Int32.le_iff_toInt_le, not_le] at hle
    exact (min_eq_right hle.le).symm

/-- The id of processor `i` of `processorCount`. -/
def cappedId (tid : ManagedThreadId) {processorCount : Int32} (h : 0 < processorCount)
    (cpu : ℕ → OsCpu) (i : Fin processorCount.toInt.toNat) : Int32 :=
  idOn (.ofProcessorCount processorCount h) tid (some (spreadsPalGetCpuNumber (cpu i)))

theorem toInt_cappedId (tid : ManagedThreadId) {processorCount : Int32}
    (h : 0 < processorCount) {cpu : ℕ → OsCpu} (hcpu : Gapless processorCount cpu)
    (i : Fin processorCount.toInt.toNat) :
    (cappedId tid h cpu i).toInt =
      (0 + i : ℕ) % (CoreCount.ofProcessorCount processorCount h).val.toInt := by
  rw [cappedId, toInt_idOn _ tid (hcpu i (by omega)), Nat.zero_add]

/-- The cap at `MaxCores` folds the processors evenly. With processors numbered from zero
without gaps, the numbers of processors that share two ids differ by at most one, and all
ids are distinct iff there are no more than `MaxCores` processors. -/
theorem capped_balanced (tid : ManagedThreadId) {processorCount : Int32}
    (h : 0 < processorCount) {cpu : ℕ → OsCpu} (hcpu : Gapless processorCount cpu) :
    (∀ a b, ValidIndex (.ofProcessorCount processorCount h) a →
      ValidIndex (.ofProcessorCount processorCount h) b →
      #{i | cappedId tid h cpu i = a} ≤ #{i | cappedId tid h cpu i = b} + 1) ∧
    (Function.Injective (cappedId tid h cpu) ↔ processorCount ≤ maxCores) := by
  have hid := toInt_cappedId tid h hcpu
  refine ⟨fun a b ha hb => consecutive_balanced hid ha hb, ?_⟩
  obtain ⟨N, hN⟩ := Int.eq_ofNat_of_zero_le
    (CoreCount.ofProcessorCount processorCount h).toInt_pos.le
  have hmod : Function.Injective (cappedId tid h cpu) ↔
      Function.Injective fun i : Fin processorCount.toInt.toNat => (i : ℕ) % N := by
    simp only [Function.Injective, ← Int32.toInt_inj, hid, hN, Nat.zero_add]
    exact_mod_cast Iff.rfl
  have hpos : 0 < processorCount.toInt := Int32.lt_iff_toInt_lt.mp h
  have hmin := CoreCount.toInt_ofProcessorCount h
  rw [hmod, Arcs.residue_injective_iff (by omega), Int32.le_iff_toInt_le,
    show maxCores.toInt = 128 from rfl]
  omega

/-- With 192 processors in three full groups, some share an id. -/
theorem threeFullGroups_balanced :
    (∀ a b, ValidIndex (.ofProcessorCount 192 (by decide)) a →
      ValidIndex (.ofProcessorCount 192 (by decide)) b →
      #{i | cappedId (firstThreads 0) (show (0 : Int32) < 192 by decide) windowsCpu i = a} ≤
        #{i | cappedId (firstThreads 0) (show (0 : Int32) < 192 by decide) windowsCpu i = b} + 1) ∧
    (Function.Injective (cappedId (firstThreads 0) (show (0 : Int32) < 192 by decide) windowsCpu) ↔
      (192 : Int32) ≤ maxCores) :=
  capped_balanced (firstThreads 0) _ (gapless_windowsCpu (by decide))

/-! ## Sets of CPUs -/

/-- The Linux CPUs that the process may run on : ranges of numbers, each its first number
and how many. `CoreCount` counts these CPUs. -/
structure Cpuset where
  ranges : List (ℕ × ℕ)
  coreCount : CoreCount
  size_pos : ∀ r ∈ ranges, 0 < r.2
  ordered : ranges.Pairwise fun r s => r.1 + r.2 ≤ s.1
  lt : ∀ r ∈ ranges, r.1 + r.2 ≤ 2 ^ 31
  sum_eq : ((ranges.map Prod.snd).sum : ℤ) = coreCount.val.toInt

namespace Cpuset

variable (cpus : Cpuset)

/-- The first number of range `g`. -/
def first (g : Fin cpus.ranges.length) : ℕ :=
  cpus.ranges[g].1

/-- How many numbers range `g` has. -/
def size (g : Fin cpus.ranges.length) : ℕ :=
  cpus.ranges[g].2

/-- A CPU of the set : its range, and its place in the range. -/
abbrev Member : Type :=
  (g : Fin cpus.ranges.length) × Fin (cpus.size g)

/-- `CoreCount` as a number. -/
def total : ℕ :=
  (cpus.ranges.map Prod.snd).sum

variable {cpus}

/-- The id that is computed on a CPU of the set. -/
def coreId (tid : ManagedThreadId) (c : cpus.Member) : Int32 :=
  idOn cpus.coreCount tid (some (spreadsPalGetCpuNumber (linuxCpu (cpus.first c.1 + c.2))))

theorem total_pos : 0 < cpus.total := by
  have := cpus.coreCount.toInt_pos
  have := cpus.sum_eq
  unfold total
  omega

theorem size_pos' (g : Fin cpus.ranges.length) : 0 < cpus.size g :=
  cpus.size_pos _ (List.getElem_mem _)

theorem sum_size : ∑ g, cpus.size g = cpus.total := by
  unfold total
  rw [← Fin.sum_univ_getElem]
  exact Fintype.sum_equiv (finCongr (List.length_map Prod.snd).symm) _ _ fun g => by
    simp [size]

theorem size_le_total (g : Fin cpus.ranges.length) : cpus.size g ≤ cpus.total :=
  List.single_le_sum (fun _ _ => Nat.zero_le _) _
    (List.mem_map_of_mem (List.getElem_mem _))

theorem first_add_size_le {g h : Fin cpus.ranges.length} (hgh : g < h) :
    cpus.first g + cpus.size g ≤ cpus.first h :=
  List.pairwise_iff_getElem.mp cpus.ordered g h g.isLt h.isLt hgh

theorem first_mono : Monotone cpus.first := by
  intro g h hgh
  rcases hgh.eq_or_lt with rfl | hlt
  · exact le_rfl
  · exact (Nat.le_add_right _ _).trans (first_add_size_le hlt)

/-- The id of a CPU is its place on the circle of `CoreCount` ids. -/
theorem toInt_coreId (tid : ManagedThreadId) (c : cpus.Member) :
    (coreId tid c).toInt = Arcs.place cpus.total cpus.first cpus.size c := by
  have hle : cpus.first c.1 + cpus.size c.1 ≤ 2 ^ 31 := cpus.lt _ (List.getElem_mem _)
  have hlt := c.2.isLt
  rw [coreId, toInt_idOn _ _ (toInt_linuxCpu (by omega)), ← cpus.sum_eq, Arcs.place]
  exact_mod_cast rfl

/-- No two ranges overlap on the circle of ids. -/
def RangesApart (cpus : Cpuset) : Prop :=
  ∀ g h : Fin cpus.ranges.length, g < h →
    cpus.size g ≤ (cpus.first h - cpus.first g) % cpus.total ∧
      (cpus.first h - cpus.first g) % cpus.total + cpus.size h ≤ cpus.total

/-- The ids of the CPUs that the process may run on are distinct iff no two of their ranges
overlap modulo `CoreCount`, and then every index is the id of exactly one of them. A
single range never overlaps, wherever it starts. -/
theorem coreId_distinct_iff (cpus : Cpuset) (tid : ManagedThreadId) :
    (Function.Injective (coreId tid : cpus.Member → Int32) ↔ cpus.RangesApart) ∧
    (cpus.RangesApart → ∀ id, ValidIndex cpus.coreCount id →
      ∃! c : cpus.Member, coreId tid c = id) ∧
    (cpus.ranges.length = 1 → cpus.RangesApart) := by
  have heq : ∀ c d : cpus.Member, coreId tid c = coreId tid d ↔
      Arcs.place cpus.total cpus.first cpus.size c =
        Arcs.place cpus.total cpus.first cpus.size d := by
    intro c d
    rw [← Int32.toInt_inj, toInt_coreId, toInt_coreId, Int.natCast_inj]
  have htotal : 0 < cpus.total := total_pos
  have hplace := Arcs.place_injective_iff htotal size_pos' size_le_total first_mono
  refine ⟨?_, fun hapart id hid => ?_, fun hone g h hgh => ?_⟩
  · rw [RangesApart, ← hplace]
    simp only [Function.Injective, heq]
  · obtain ⟨h0, hlt⟩ := validIndex_iff.mp hid
    obtain ⟨k, hk⟩ := Int.eq_ofNat_of_zero_le h0
    have hktotal : k < cpus.total := by
      have := cpus.sum_eq
      unfold total
      omega
    have hinj := hplace.mpr hapart
    obtain ⟨c, hc⟩ := Arcs.exists_place_eq total_pos hinj sum_size hktotal
    refine ⟨c, ?_, fun d hd => hinj ?_⟩
    · change coreId tid c = id
      rw [← Int32.toInt_inj, toInt_coreId, hk, hc]
    · have hd' := congrArg Int32.toInt hd
      rw [toInt_coreId, hk] at hd'
      exact (Int.natCast_inj.mp hd').trans hc.symm
  · have := g.isLt
    have := h.isLt
    have hval : (g : ℕ) < h := hgh
    omega

/-- CPUs 0 to 2 and 9 to 11. -/
def zeroAndNine : Cpuset where
  ranges := [(0, 3), (9, 3)]
  coreCount := ⟨6, by decide, by decide⟩
  size_pos := by decide
  ordered := List.pairwise_pair.mpr (by decide)
  lt := by decide
  sum_eq := by decide

/-- CPUs 0 to 2 and 8 to 10. -/
def zeroAndEight : Cpuset where
  ranges := [(0, 3), (8, 3)]
  coreCount := ⟨6, by decide, by decide⟩
  size_pos := by decide
  ordered := List.pairwise_pair.mpr (by decide)
  lt := by decide
  sum_eq := by decide

/-- CPUs 0 to 2 and 9 to 11 have six ids. Of 0 to 2 and 8 to 10 two have the id 2. -/
theorem zeroAndNine_distinct :
    Function.Injective (coreId ⟨1, by decide⟩ : zeroAndNine.Member → Int32) ∧
      ¬ Function.Injective (coreId ⟨1, by decide⟩ : zeroAndEight.Member → Int32) := by
  have hnine : zeroAndNine.RangesApart := by
    unfold RangesApart
    decide
  have height : ¬ zeroAndEight.RangesApart := by
    unfold RangesApart
    decide
  exact ⟨(coreId_distinct_iff zeroAndNine _).1.mpr hnine,
    mt (coreId_distinct_iff zeroAndEight _).1.mp height⟩

end Cpuset

/-! ## Pinned threads -/

/-- Threads that stay on distinct processors numbered below `CoreCount` are never shown one
id, in any interleaving : each is always shown its processor's number. -/
theorem pinned_exclusive {κ : Type*} [DecidableEq κ] (build : Build) (coreCount : CoreCount)
    (tid : κ → ManagedThreadId) {cpu : κ → Int32} (hcpu : Function.Injective cpu)
    (hvalid : ∀ k, ValidIndex coreCount (cpu k)) (events : List (κ × Call)) :
    ∃ shown ts, (threads build fun k => envOn coreCount (tid k) (some (cpu k))).run events
        (fun _ => .fresh) = .ok (shown, ts) ∧
      (∀ p ∈ shown, p.2.value = cpu p.1) ∧
      ∀ p ∈ shown, ∀ q ∈ shown, p.2.value = q.2.value → p.1 = q.1 := by
  have hid : ∀ k n, normalizedId (envOn coreCount (tid k) (some (cpu k))) n = cpu k := by
    intro k n
    obtain ⟨h0, hlt⟩ := validIndex_iff.mp (hvalid k)
    obtain ⟨m, hm⟩ := Int.eq_ofNat_of_zero_le h0
    rw [normalizedId_envOn, ← Int32.toInt_inj, toInt_idOn _ _ hm, ← hm,
      Int.emod_eq_of_lt h0 hlt]
  have hstep := fun k => Unpacked.Latest.step_value (P := (· = cpu k)) (hid k)
  obtain ⟨ts, hts, -⟩ := (Fallible.Simulates.pool fun k => thread_simulates build
    (envOn coreCount (tid k) (some (cpu k)))).run events fun k => packs_fresh _
  have hshown := ((unpackedThreads fun k => envOn coreCount (tid k) (some (cpu k))).run_invariant
    (Machine.pool_invariant hstep) events _ fun k => Unpacked.latest_fresh _).2
  refine ⟨_, ts, hts, hshown, fun p hp q hq hpq => hcpu ?_⟩
  rw [← hshown p hp, hpq, hshown q hq]

/-- Two threads on CPUs 0 and 1. -/
theorem two_threads_exclusive :
    ∃ shown ts, (threads .debug fun k : Bool =>
        envOn twoCores (firstThreads 0) (some (if k then 1 else 0))).run
          [(true, .getCurrentCoreId), (false, .getCurrentCoreId)] (fun _ => .fresh) =
        .ok (shown, ts) ∧
      (∀ p ∈ shown, p.2.value = if p.1 then 1 else 0) ∧
      ∀ p ∈ shown, ∀ q ∈ shown, p.2.value = q.2.value → p.1 = q.1 :=
  pinned_exclusive .debug twoCores (fun _ => firstThreads 0)
    (by unfold Function.Injective; decide) (by unfold ValidIndex; decide) _

end Cpu

end SpreadsNative
