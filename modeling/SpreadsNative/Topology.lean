import SpreadsNative.CoreId
import SpreadsNative.Pal
import SpreadsNative.Arcs
import Mathlib.Algebra.BigOperators.Fin
import Mathlib.Data.Fintype.BigOperators
import Mathlib.Data.Fintype.EquivFin
import Mathlib.Algebra.Order.BigOperators.Group.List

/-!
# Processor groups on Windows

The native CPU number of processor `n` of group `g` is `64 g + n`, and the core id its
remainder by `CoreCount` (`toInt_coreId`). So each group is an arc of `CoreCount` places
that starts 64 after the one before (`Arcs`), and the ids of all processors are distinct
iff no two of these arcs overlap (`coreId_injective_iff`). They do overlap when a group
that is not the last is only part full, as two groups of 36 are.
-/

namespace SpreadsNative

namespace Cpu

/-- Processor groups whose processors are the `CoreCount` cores. -/
structure Topology where
  groups : List ℕ
  coreCount : CoreCount
  size_pos : ∀ s ∈ groups, 0 < s
  size_le : ∀ s ∈ groups, s ≤ 64
  sum_eq : (groups.sum : ℤ) = coreCount.val.toInt

namespace Topology

variable (top : Topology)

/-- The number of processors of group `g`. -/
def size (g : Fin top.groups.length) : ℕ :=
  top.groups[g]

/-- A processor : its group, and its number in the group. -/
abbrev Processor : Type :=
  (g : Fin top.groups.length) × Fin (top.size g)

variable {top}

/-- The `PROCESSOR_NUMBER` of a processor. -/
def Processor.processorNumber (p : top.Processor) : ProcessorNumber where
  group := .ofNat p.1
  number := .ofNat p.2

/-- What a thread running on processor `p` reads. -/
def Processor.env (p : top.Processor) (tid : ManagedThreadId) : Env where
  coreCount := top.coreCount
  currentManagedThreadId := tid
  pal _ := some (spreadsPalGetCpuNumber (.windows p.processorNumber))

/-- The id `RefreshCurrentCoreId` computes on processor `p`. -/
def coreId (tid : ManagedThreadId) (p : top.Processor) : Int32 :=
  (refreshCurrentCoreId (p.env tid) .fresh).1

theorem size_pos' (g : Fin top.groups.length) : 0 < top.size g :=
  top.size_pos _ (List.getElem_mem _)

theorem size_le' (g : Fin top.groups.length) : top.size g ≤ 64 :=
  top.size_le _ (List.getElem_mem _)

theorem sum_pos : 0 < top.groups.sum := by
  have := top.coreCount.toInt_pos
  have := top.sum_eq
  omega

theorem sum_le : top.groups.sum ≤ 128 := by
  have := top.coreCount.toInt_le
  have := top.sum_eq
  omega

/-- The sum counts each group, so there are at most 128. -/
theorem length_le : top.groups.length ≤ 128 :=
  (List.length_le_sum_of_one_le _ top.size_pos).trans sum_le

theorem size_le_sum (g : Fin top.groups.length) : top.size g ≤ top.groups.sum :=
  List.single_le_sum (fun _ _ => Nat.zero_le _) _ (List.getElem_mem _)

/-! ## Ids as places -/

/-- The native CPU number of a processor. -/
theorem Processor.toInt_native (p : top.Processor) :
    (spreadsPalGetCpuNumber (.windows p.processorNumber)).toInt = (64 * p.1 + p.2 : ℕ) := by
  have hg : (p.1 : ℕ) < 128 := p.1.isLt.trans_le length_le
  have hn : (p.2 : ℕ) < 64 := p.2.isLt.trans_le (size_le' p.1)
  have hgroup : p.processorNumber.group.toNat = p.1 :=
    UInt16.toNat_ofNat_of_lt (hg.trans (by decide))
  have hnumber : p.processorNumber.number.toNat = p.2 :=
    UInt8.toNat_ofNat_of_lt (hn.trans (by decide))
  rw [toInt_windows _ (by rw [hnumber]; exact hn), hgroup, hnumber]
  push_cast
  rfl

/-- The core id is the place of the processor on the circle of `CoreCount` ids. -/
theorem toInt_coreId (tid : ManagedThreadId) (p : top.Processor) :
    (coreId tid p).toInt = Arcs.place top.groups.sum (fun g => 64 * (g : ℕ)) top.size p := by
  have hnative := p.toInt_native
  have hraw : rawId (p.env tid) 0 = spreadsPalGetCpuNumber (.windows p.processorNumber) := by
    refine if_neg ?_
    change ¬ spreadsPalGetCpuNumber (.windows p.processorNumber) < 0
    rw [Int32.lt_iff_toInt_lt, hnative]
    exact not_lt.mpr (Int.natCast_nonneg _)
  rw [coreId, refreshCurrentCoreId_fst, toInt_normalizedId,
    show Thread.fresh.nativeCalls = 0 from rfl, hraw, hnative,
    show (p.env tid).coreCount = top.coreCount from rfl, ← top.sum_eq, Arcs.place]
  exact_mod_cast rfl

theorem coreId_eq_iff (tid : ManagedThreadId) (p q : top.Processor) :
    coreId tid p = coreId tid q ↔
      Arcs.place top.groups.sum (fun g => 64 * (g : ℕ)) top.size p =
        Arcs.place top.groups.sum (fun g => 64 * (g : ℕ)) top.size q := by
  rw [← Int32.toInt_inj, toInt_coreId, toInt_coreId, Int.natCast_inj]

/-- A new thread on processor `p` gets that id on every build. -/
theorem getCurrentCoreId_fresh (build : Build) (tid : ManagedThreadId) (p : top.Processor) :
    ∃ t, Cpu.getCurrentCoreId build (p.env tid) .fresh = .ok (coreId tid p, t) :=
  ⟨_, getCurrentCoreId_of_due build _ (packs_fresh _) rfl⟩

theorem validIndex_coreId (tid : ManagedThreadId) (p : top.Processor) :
    ValidIndex top.coreCount (coreId tid p) := by
  unfold coreId
  rw [refreshCurrentCoreId_fst]
  exact validIndex_normalizedId _ _

/-- If the ids are distinct, every index is one. -/
theorem exists_coreId_eq {tid : ManagedThreadId}
    (hinj : Function.Injective (coreId tid : top.Processor → Int32)) {id : Int32}
    (hid : ValidIndex top.coreCount id) : ∃ p : top.Processor, coreId tid p = id := by
  obtain ⟨h0, hlt⟩ := validIndex_iff.mp hid
  obtain ⟨k, hk⟩ := Int.eq_ofNat_of_zero_le h0
  have hksum : k < top.groups.sum := by
    have := top.sum_eq
    omega
  have hplace : Function.Injective
      (Arcs.place top.groups.sum (fun g => 64 * (g : ℕ)) top.size) :=
    fun p q h => hinj ((coreId_eq_iff tid p q).mpr h)
  obtain ⟨p, hp⟩ := Arcs.exists_place_eq sum_pos hplace (Fin.sum_univ_getElem top.groups) hksum
  refine ⟨p, ?_⟩
  rw [← Int32.toInt_inj, toInt_coreId, hk, hp]

/-- No two groups overlap on the circle of ids. -/
def GroupsApart (top : Topology) : Prop :=
  ∀ g h : Fin top.groups.length, g < h →
    top.size g ≤ 64 * (h - g : ℕ) % top.groups.sum ∧
      64 * (h - g : ℕ) % top.groups.sum + top.size h ≤ top.groups.sum

/-- If every group before `h` is full, the numbers of group `h` are within the sum. -/
theorem le_sum_of_full {h : ℕ} (hh : h < top.groups.length)
    (hfull : ∀ g : Fin top.groups.length, (g : ℕ) < h → top.size g = 64) :
    64 * h + top.size ⟨h, hh⟩ ≤ top.groups.sum := by
  have htake : ∀ n (hn : n ≤ h), (top.groups.take n).sum = 64 * n := by
    intro n
    induction n with
    | zero => intro _; rfl
    | succ n ih =>
      intro hn
      have hsize : top.groups[n] = 64 := hfull ⟨n, by omega⟩ hn
      rw [List.sum_take_succ _ _ (by omega), ih (by omega), hsize]
      ring
  have hsucc := List.sum_take_succ top.groups h hh
  rw [htake h le_rfl] at hsucc
  have hsplit := List.sum_take_add_sum_drop top.groups (h + 1)
  have hsize : top.size ⟨h, hh⟩ = top.groups[h] := rfl
  omega

/-- If every group but the last is full, the groups are apart. -/
theorem groupsApart_of_full
    (hfull : ∀ g : Fin top.groups.length, (g : ℕ) + 1 < top.groups.length → top.size g = 64) :
    top.GroupsApart := by
  intro g h hgh
  have hlt : (g : ℕ) < h := hgh
  have hsum := le_sum_of_full h.isLt fun i hi => hfull i (by omega)
  have hpos := size_pos' h
  have hle := size_le' g
  change 64 * (h : ℕ) + top.size h ≤ _ at hsum
  rw [Nat.mod_eq_of_lt (by omega)]
  constructor <;> omega

/-- The id that `GetCurrentCoreId` returns on a processor is always a valid index. The ids
of all processors are distinct iff no two groups overlap on the circle of ids, and then
every index is one. No two do if every group but the last is full. -/
theorem coreId_injective_iff (top : Topology) (tid : ManagedThreadId) :
    (∀ build (p : top.Processor), ∃ t,
      Cpu.getCurrentCoreId build (p.env tid) .fresh = .ok (coreId tid p, t)) ∧
    (∀ p : top.Processor, ValidIndex top.coreCount (coreId tid p)) ∧
    (Function.Injective (coreId tid : top.Processor → Int32) ↔ top.GroupsApart) ∧
    (top.GroupsApart → ∀ id, ValidIndex top.coreCount id →
      ∃! p : top.Processor, coreId tid p = id) ∧
    ((∀ g : Fin top.groups.length, (g : ℕ) + 1 < top.groups.length → top.size g = 64) →
      top.GroupsApart) := by
  have hiff : Function.Injective (coreId tid : top.Processor → Int32) ↔ top.GroupsApart := by
    have hstart : Monotone fun g : Fin top.groups.length => 64 * (g : ℕ) :=
      fun g h hgh => Nat.mul_le_mul_left 64 hgh
    have hplace := Arcs.place_injective_iff sum_pos size_pos' size_le_sum hstart
    simp only [← Nat.mul_sub] at hplace
    unfold GroupsApart
    rw [← hplace]
    simp only [Function.Injective, coreId_eq_iff]
  refine ⟨fun build => getCurrentCoreId_fresh build tid, validIndex_coreId tid, hiff,
    fun hapart id hid => ?_, groupsApart_of_full⟩
  obtain ⟨p, hp⟩ := exists_coreId_eq (hiff.mpr hapart) hid
  exact ⟨p, hp, fun q hq => hiff.mpr hapart (hq.trans hp.symm)⟩

/-- Two groups of 36 processors. -/
def twoGroupsOf36 : Topology where
  groups := [36, 36]
  coreCount := ⟨72, by decide, by decide⟩
  size_pos := by decide
  size_le := by decide
  sum_eq := by decide

/-- With two groups of 36, processor 0 of group 0 and processor 8 of group 1 get one id. -/
theorem twoGroupsOf36_collide :
    ¬ Function.Injective (coreId ⟨1, by decide⟩ : twoGroupsOf36.Processor → Int32) := by
  intro hinj
  let p : twoGroupsOf36.Processor := ⟨⟨0, by decide⟩, ⟨0, by decide⟩⟩
  let q : twoGroupsOf36.Processor := ⟨⟨1, by decide⟩, ⟨8, by decide⟩⟩
  have hsame : coreId ⟨1, by decide⟩ p = coreId ⟨1, by decide⟩ q := by decide
  have hgroup := congrArg (fun r : twoGroupsOf36.Processor => (r.1 : ℕ)) (hinj hsame)
  exact absurd hgroup (by decide)

end Topology

end Cpu

end SpreadsNative
