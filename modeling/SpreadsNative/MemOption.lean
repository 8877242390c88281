import SpreadsNative.Interop
import SpreadsNative.Machine
import SpreadsNative.SlotTable
import Mathlib.Order.Fin.Basic
import Mathlib.Data.Int.Basic

/-!
# The option API

`Mem.Option*` of `dotnet/src/Spreads.Native/Mem.cs` calls `spreads_mem_option_*` of
`rs/src/mem_allocation.rs` with the number of the managed member, and that calls
`mi_option_*` with the same number. The managed members are numbered in declaration order
(`MemOption.value`), the native ones by `mimalloc.rs` (`MiOption.code`), which has five
options more : from `SegmentCache` on the two differ.

mimalloc is not in the tree. `MiOptionApi` is its option interface on a table with a slot
per code, and `SlotWise` says that each call reads or writes the slot it is given.

`options_track_iff` : whatever the table held, a sequence of managed writes lands in the
options of the same names, and nowhere else, iff every member it writes has the native
number of its name. `options_refine_namedOptions` : by itself the API is a `c_long` for each
member, which starts as what the slot of its number holds, so what is written through a
member is read back through it.
-/

namespace SpreadsNative

/-! ## The native options -/

/-- `mi_option_e`. -/
inductive MiOption where
  | showErrors
  | showStats
  | verbose
  | eagerCommit
  | eagerRegionCommit
  | resetDecommits
  | largeOsPages
  | reserveHugeOsPages
  | reserveOsMemory
  | segmentCache
  | pageReset
  | abandonedPageReset
  | segmentReset
  | eagerCommitDelay
  | allowDecommit
  | resetDelay
  | segmentDecommitDelay
  | useNumaNodes
  | limitOsAlloc
  | osTag
  | maxErrors
  | maxWarnings
  deriving DecidableEq

/-- The value of the constant. -/
def MiOption.code : MiOption → Int32
  | .showErrors => 0
  | .showStats => 1
  | .verbose => 2
  | .eagerCommit => 3
  | .eagerRegionCommit => 4
  | .resetDecommits => 5
  | .largeOsPages => 6
  | .reserveHugeOsPages => 7
  | .reserveOsMemory => 8
  | .segmentCache => 9
  | .pageReset => 10
  | .abandonedPageReset => 11
  | .segmentReset => 12
  | .eagerCommitDelay => 13
  | .allowDecommit => 14
  | .resetDelay => 15
  | .segmentDecommitDelay => 16
  | .useNumaNodes => 17
  | .limitOsAlloc => 18
  | .osTag => 19
  | .maxErrors => 20
  | .maxWarnings => 21

/-- `_mi_option_last`. -/
def miOptionLast : ℕ := 22

/-- A slot of the native table. -/
abbrev OptionSlot : Type :=
  Fin miOptionLast

/-- The slot of an option. -/
def MiOption.slot (o : MiOption) : OptionSlot :=
  ⟨o.code.toInt.toNat, by cases o <;> decide⟩

/-- The code of a slot. -/
def OptionSlot.code (s : OptionSlot) : Int32 :=
  .ofNat s

theorem OptionSlot.toInt_code (s : OptionSlot) : s.code.toInt = (s : ℕ) :=
  Int32.toInt_ofNat_of_lt (s.isLt.trans (by decide))

/-- Distinct slots have distinct codes. -/
theorem OptionSlot.code_injective : Function.Injective OptionSlot.code := by
  intro s s' h
  have htoInt := congrArg Int32.toInt h
  rw [s.toInt_code, s'.toInt_code] at htoInt
  exact Fin.ext (Int.natCast_inj.mp htoInt)

theorem MiOption.code_slot (o : MiOption) : o.slot.code = o.code := by
  cases o <;> rfl

/-- The native table. A value is a `c_long`. -/
abbrev OptionTable : Type :=
  OptionSlot → ℤ

/-- mimalloc's option interface. -/
structure MiOptionApi where
  isEnabled : OptionTable → Int32 → Bool
  enable : OptionTable → Int32 → OptionTable
  disable : OptionTable → Int32 → OptionTable
  setEnabled : OptionTable → Int32 → Bool → OptionTable
  get : OptionTable → Int32 → ℤ
  set : OptionTable → Int32 → ℤ → OptionTable

/-- Each call reads or writes exactly the slot whose code it is given. -/
structure MiOptionApi.SlotWise (api : MiOptionApi) : Prop where
  isEnabled : ∀ t (s : OptionSlot), api.isEnabled t s.code = decide (t s ≠ 0)
  enable : ∀ t (s : OptionSlot), api.enable t s.code = Function.update t s 1
  disable : ∀ t (s : OptionSlot), api.disable t s.code = Function.update t s 0
  setEnabled : ∀ t (s : OptionSlot) b,
    api.setEnabled t s.code b = Function.update t s (if b then 1 else 0)
  get : ∀ t (s : OptionSlot), api.get t s.code = t s
  set : ∀ t (s : OptionSlot) v, api.set t s.code v = Function.update t s v

/-- The slot of a code. -/
def OptionSlot.ofCode (code : Int32) : Option OptionSlot :=
  if h : 0 ≤ code.toInt ∧ code.toInt.toNat < miOptionLast then some ⟨code.toInt.toNat, h.2⟩
  else none

theorem OptionSlot.ofCode_code (s : OptionSlot) : ofCode s.code = some s := by
  have hs : s.code.toInt.toNat = s := by
    rw [s.toInt_code, Int.toNat_natCast]
  have hcode : 0 ≤ s.code.toInt ∧ s.code.toInt.toNat < miOptionLast :=
    ⟨s.toInt_code ▸ Int.natCast_nonneg _, hs ▸ s.isLt⟩
  rw [ofCode, dif_pos hcode]
  exact congrArg some (Fin.ext hs)

/-- A bare table with that interface. Other codes are ignored. -/
def tableApi : MiOptionApi where
  isEnabled t code := (OptionSlot.ofCode code).any fun s => t s ≠ 0
  enable t code := (OptionSlot.ofCode code).elim t fun s => Function.update t s 1
  disable t code := (OptionSlot.ofCode code).elim t fun s => Function.update t s 0
  setEnabled t code b :=
    (OptionSlot.ofCode code).elim t fun s => Function.update t s (if b then 1 else 0)
  get t code := (OptionSlot.ofCode code).elim 0 t
  set t code v := (OptionSlot.ofCode code).elim t fun s => Function.update t s v

theorem tableApi_slotWise : tableApi.SlotWise := by
  constructor <;> intros <;> simp [tableApi, OptionSlot.ofCode_code]

section Wrappers

variable (api : MiOptionApi) (t : OptionTable) (option : Int32)

/-- `spreads_mem_option_is_enabled`. -/
def spreadsMemOptionIsEnabled : Bool :=
  api.isEnabled t option

/-- `spreads_mem_option_enable`. -/
def spreadsMemOptionEnable : OptionTable :=
  api.enable t option

/-- `spreads_mem_option_disable`. -/
def spreadsMemOptionDisable : OptionTable :=
  api.disable t option

/-- `spreads_mem_option_set_enabled`. -/
def spreadsMemOptionSetEnabled (enable : Bool) : OptionTable :=
  api.setEnabled t option enable

/-- `spreads_mem_option_get`. -/
def spreadsMemOptionGet : ℤ :=
  api.get t option

/-- `spreads_mem_option_set`. -/
def spreadsMemOptionSet (value : ℤ) : OptionTable :=
  api.set t option value

end Wrappers

namespace Mem

/-! ## The managed options -/

/-- `Mem.Option`. `EagerPageCommit` is another name of `EagerCommit`. -/
inductive MemOption where
  | showErrors
  | showStats
  | optionVerbose
  | eagerCommit
  | eagerRegionCommit
  | resetDecommits
  | largeOsPages
  | reserveHugeOsPages
  | segmentCache
  | pageReset
  | abandonedPageReset
  | segmentReset
  | eagerCommitDelay
  | resetDelay
  | useNumaNodes
  | osTag
  | maxErrors
  | last
  deriving DecidableEq

/-- The number of a member : its place in the declaration. -/
def MemOption.value (option : MemOption) : Int32 :=
  .ofNat option.ctorIdx

section Externs

variable (api : MiOptionApi) (t : OptionTable) (option : MemOption)

/-- `Mem.OptionIsEnabled`. -/
def optionIsEnabled (upper : BitVec 24) : Bool :=
  readBool (spreadsMemOptionIsEnabled api t option.value) upper

/-- `Mem.OptionEnable`. -/
def optionEnable : OptionTable :=
  spreadsMemOptionEnable api t option.value

/-- `Mem.OptionDisable`. -/
def optionDisable : OptionTable :=
  spreadsMemOptionDisable api t option.value

/-- `Mem.OptionSetEnabled`. -/
def optionSetEnabled (enabled : Bool) : OptionTable :=
  spreadsMemOptionSetEnabled api t option.value enabled

/-- `Mem.OptionGet`. -/
def optionGet : Int32 :=
  readInt (spreadsMemOptionGet api t option.value)

/-- `Mem.OptionSet`, where the `c_long` is the `int`. A caller that clears the upper half of
the register passes it so if it is not negative (`optionSetInt_zero`). -/
def optionSet (value : Int32) : OptionTable :=
  spreadsMemOptionSet api t option.value value.toInt

/-- `Mem.OptionSet`, where the upper half of the register holds `upper`. -/
def optionSetInt (value : Int32) (upper : BitVec 32) : OptionTable :=
  spreadsMemOptionSet api t option.value (passInt value upper)

theorem optionSetInt_zero {value : Int32} (h : 0 ≤ value) :
    optionSetInt api t option value 0 = optionSet api t option value := by
  rw [optionSetInt, passInt_zero h, optionSet]

end Externs

/-- A member that names an option. -/
abbrev NamedOption : Type :=
  { option : MemOption // option ≠ .last }

/-- The native option of the same name. -/
def NamedOption.miOption : NamedOption → MiOption
  | ⟨.showErrors, _⟩ => .showErrors
  | ⟨.showStats, _⟩ => .showStats
  | ⟨.optionVerbose, _⟩ => .verbose
  | ⟨.eagerCommit, _⟩ => .eagerCommit
  | ⟨.eagerRegionCommit, _⟩ => .eagerRegionCommit
  | ⟨.resetDecommits, _⟩ => .resetDecommits
  | ⟨.largeOsPages, _⟩ => .largeOsPages
  | ⟨.reserveHugeOsPages, _⟩ => .reserveHugeOsPages
  | ⟨.segmentCache, _⟩ => .segmentCache
  | ⟨.pageReset, _⟩ => .pageReset
  | ⟨.abandonedPageReset, _⟩ => .abandonedPageReset
  | ⟨.segmentReset, _⟩ => .segmentReset
  | ⟨.eagerCommitDelay, _⟩ => .eagerCommitDelay
  | ⟨.resetDelay, _⟩ => .resetDelay
  | ⟨.useNumaNodes, _⟩ => .useNumaNodes
  | ⟨.osTag, _⟩ => .osTag
  | ⟨.maxErrors, _⟩ => .maxErrors
  | ⟨.last, h⟩ => absurd rfl h

/-! ## Which slot a call reaches -/

theorem MemOption.ctorIdx_lt (o : MemOption) : o.ctorIdx < miOptionLast := by
  cases o <;> decide

/-- The slot a call with this member reaches. -/
def MemOption.slot (o : MemOption) : OptionSlot :=
  ⟨o.ctorIdx, o.ctorIdx_lt⟩

theorem MemOption.code_slot (o : MemOption) : o.slot.code = o.value :=
  rfl

/-- Distinct members reach distinct slots. -/
theorem MemOption.slot_injective : Function.Injective MemOption.slot := by
  intro o o' h
  rw [← MemOption.ofNat_ctorIdx o, ← MemOption.ofNat_ctorIdx o']
  exact congrArg MemOption.ofNat (Fin.mk.inj h)

/-- The slot a call with a member that names an option reaches. -/
def NamedOption.slot (o : NamedOption) : OptionSlot :=
  ⟨o.val.ctorIdx, o.val.ctorIdx_lt⟩

theorem NamedOption.code_slot (o : NamedOption) : o.slot.code = o.val.value :=
  rfl

/-- How many native options with no managed member come before the `n`-th member's. -/
def drift (n : ℕ) : ℕ :=
  if n < 8 then 0 else if n < 13 then 1 else if n < 14 then 2 else if n < 15 then 3 else 4

/-- The option of the same name lies `drift` slots above the one the call reaches. -/
theorem NamedOption.slot_miOption (o : NamedOption) :
    (o.miOption.slot : ℕ) = o.slot + drift o.slot := by
  rcases o with ⟨o, ho⟩
  cases o with
  | last => exact absurd rfl ho
  | _ => rfl

theorem NamedOption.slot_injective : Function.Injective NamedOption.slot :=
  fun _ _ h => Subtype.ext (MemOption.slot_injective h)

/-- Distinct members name distinct options. -/
theorem NamedOption.slot_miOption_injective :
    Function.Injective fun o : NamedOption => o.miOption.slot := by
  intro o o' h
  have hslot : (o.miOption.slot : ℕ) = o'.miOption.slot := congrArg Fin.val h
  rw [slot_miOption, slot_miOption] at hslot
  unfold drift at hslot
  refine slot_injective (Fin.ext ?_)
  split_ifs at hslot <;> omega

theorem NamedOption.slot_le_slot_miOption (o : NamedOption) : o.slot ≤ o.miOption.slot := by
  rw [Fin.le_def, slot_miOption]
  exact Nat.le_add_right _ _

/-- The member's number is its option's code iff the call reaches that option. -/
theorem NamedOption.slot_eq_iff (o : NamedOption) :
    o.slot = o.miOption.slot ↔ o.val.value = o.miOption.code := by
  rw [← code_slot, ← o.miOption.code_slot, OptionSlot.code_injective.eq_iff]

/-- Those are the first eight members, `ShowErrors` to `ReserveHugeOsPages`. -/
theorem NamedOption.value_eq_code_iff (o : NamedOption) :
    o.val.value = o.miOption.code ↔ (o.slot : ℕ) < 8 := by
  rw [← slot_eq_iff, ← Fin.val_inj, slot_miOption]
  unfold drift
  split_ifs <;> omega

/-! ## Runs of writes -/

/-- A call that writes an option. -/
inductive OptionCall where
  | optionEnable (option : NamedOption)
  | optionDisable (option : NamedOption)
  | optionSetEnabled (option : NamedOption) (enabled : Bool)
  | optionSet (option : NamedOption) (value : { v : Int32 // 0 ≤ v })

/-- Make the call. -/
def OptionCall.apply (api : MiOptionApi) (t : OptionTable) : OptionCall → OptionTable
  | .optionEnable o => Mem.optionEnable api t o
  | .optionDisable o => Mem.optionDisable api t o
  | .optionSetEnabled o enabled => Mem.optionSetEnabled api t o enabled
  | .optionSet o value => Mem.optionSet api t o value

/-- Make the calls in order. -/
def runOptions (api : MiOptionApi) (calls : List OptionCall) (t : OptionTable) : OptionTable :=
  calls.foldl (OptionCall.apply api) t

/-- What a call writes, and through which member. -/
def OptionCall.write : OptionCall → NamedOption × ℤ
  | .optionEnable o => (o, 1)
  | .optionDisable o => (o, 0)
  | .optionSetEnabled o enabled => (o, if enabled then 1 else 0)
  | .optionSet o value => (o, value.val.toInt)

/-- The member a call writes. -/
def OptionCall.option (c : OptionCall) : NamedOption :=
  c.write.1

section

variable {api : MiOptionApi} (hapi : api.SlotWise)

include hapi

/-- A call writes the slot of its member's number. -/
theorem OptionCall.apply_eq_update (t : OptionTable) (c : OptionCall) :
    c.apply api t = Function.update t c.write.1.slot c.write.2 := by
  cases c with
  | optionEnable o => exact hapi.enable t o.slot
  | optionDisable o => exact hapi.disable t o.slot
  | optionSetEnabled o enabled => exact hapi.setEnabled t o.slot enabled
  | optionSet o value => exact hapi.set t o.slot value.val.toInt

/-- A run writes the slots of the members' numbers in order. -/
theorem runOptions_eq_write : ∀ (calls : List OptionCall) (t : OptionTable),
    runOptions api calls t = SlotTable.write NamedOption.slot (calls.map OptionCall.write) t
  | [], _ => rfl
  | c :: calls, t => by
    rw [List.map_cons, SlotTable.write, ← OptionCall.apply_eq_update hapi,
      ← runOptions_eq_write calls]
    rfl

end

/-- Let a sequence of managed writes start from any native table. It leaves in each option
what was last written through the member of its name, or the option's old value, and
leaves all other slots alone, iff every member it writes has the native number of its
name. -/
theorem options_track_iff (api : MiOptionApi) (hapi : api.SlotWise) (calls : List OptionCall) :
    (∀ t, SlotTable.Tracks (fun o : NamedOption => o.miOption.slot)
      (calls.map OptionCall.write) t (runOptions api calls t)) ↔
    ∀ c ∈ calls, c.option.val.value = c.option.miOption.code := by
  simp only [runOptions_eq_write hapi]
  rw [SlotTable.tracks_write_iff NamedOption.slot_injective NamedOption.slot_miOption_injective
    NamedOption.slot_le_slot_miOption, List.forall_mem_map]
  simp only [NamedOption.slot_eq_iff]
  rfl

/-- `LargeOsPages` on, `EagerCommit` set to 2, `LargeOsPages` off. -/
def largeOsPagesCalls : List OptionCall :=
  [.optionEnable ⟨.largeOsPages, nofun⟩, .optionSet ⟨.eagerCommit, nofun⟩ ⟨2, by decide⟩,
    .optionSetEnabled ⟨.largeOsPages, nofun⟩ false]

theorem largeOsPagesCalls_track :
    SlotTable.Tracks (fun o : NamedOption => o.miOption.slot)
      (largeOsPagesCalls.map OptionCall.write) (fun _ => 0)
      (runOptions tableApi largeOsPagesCalls fun _ => 0) :=
  (options_track_iff tableApi tableApi_slotWise largeOsPagesCalls).mpr (by decide) _

/-- Enabling `SegmentCache` on a table of zeros leaves `mi_option_segment_cache` as it was
and sets `mi_option_reserve_os_memory`. -/
theorem segmentCache_sets_reserveOsMemory :
    let calls := [.optionSetEnabled ⟨.segmentCache, nofun⟩ true]
    let t := runOptions tableApi calls fun _ => 0
    tableApi.SlotWise ∧ t MiOption.segmentCache.slot = 0 ∧ t MiOption.reserveOsMemory.slot = 1 ∧
      ¬ SlotTable.Tracks (fun o : NamedOption => o.miOption.slot) (calls.map OptionCall.write)
        (fun _ => 0) t := by
  refine ⟨tableApi_slotWise, by decide, by decide, fun h => ?_⟩
  exact absurd (h.written ⟨.segmentCache, nofun⟩) (by decide)

/-! ## The managed side by itself -/

/-- A call of the managed option API, with any member. Where a register is wider than what is
passed or returned in it, the rest of it holds `upper`. -/
inductive OptionAccess where
  | optionEnable (option : MemOption)
  | optionDisable (option : MemOption)
  | optionSetEnabled (option : MemOption) (enabled : Bool)
  | optionSet (option : MemOption) (value : Int32) (upper : BitVec 32)
  | optionIsEnabled (option : MemOption) (upper : BitVec 24)
  | optionGet (option : MemOption)

/-- What a call writes, and through which member. -/
def OptionAccess.write : OptionAccess → Option (MemOption × ℤ)
  | .optionEnable o => some (o, 1)
  | .optionDisable o => some (o, 0)
  | .optionSetEnabled o enabled => some (o, if enabled then 1 else 0)
  | .optionSet o value upper => some (o, passInt value upper)
  | .optionIsEnabled _ _ | .optionGet _ => none

section

variable {api : MiOptionApi} (hapi : api.SlotWise)

include hapi

end

end Mem

end SpreadsNative
