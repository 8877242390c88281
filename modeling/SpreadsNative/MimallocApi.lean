import SpreadsNative.Blocks
import SpreadsNative.MemAllocation

/-!
# What mimalloc does to blocks

mimalloc is not in the tree. `MimallocApi` has the entries that `SpreadsMalloc` and
`spreads_mem_*` call, on a heap, and `KeepsBlocks` says what each does to the blocks, after
the comments on `spreads_mem_*` in `rs/src/mem_allocation.rs` and on the externs of
`dotnet/src/Spreads.Native/Mem.cs`.

`BlockHeap` is a heap that meets all of it (`BlockHeap.keepsBlocks`) : it is filled from the
bottom, and a block is resized in place if it is large enough.
-/

open Blocks

namespace SpreadsNative

/-- The width of `usize`. -/
def TargetArch.usizeBits : TargetArch → ℕ
  | .x86 | .arm | .mips | .powerpc | .asmjs | .wasm32 => 32
  | .powerpc64 | .x86_64 | .aarch64 | .mips64 | .s390x | .sparc64 => 64

/-- The entries of mimalloc that the two sides call. -/
structure MimallocApi (H : Type*) extends Mimalloc H where
  miCalloc : H → (count size : ℕ) → Ptr × H
  miMallocn : H → (count size : ℕ) → Ptr × H
  miReallocn : H → Ptr → (count size : ℕ) → Ptr × H
  miReallocf : H → Ptr → (newsize : ℕ) → Ptr × H
  miExpand : H → Ptr → (newsize : ℕ) → Ptr × H
  miMallocSmall : H → (size : ℕ) → Ptr × H
  miZallocSmall : H → (size : ℕ) → Ptr × H
  miMallocAlignedAt : H → (size alignment offset : ℕ) → Ptr × H
  miZallocAlignedAt : H → (size alignment offset : ℕ) → Ptr × H
  miCallocAligned : H → (count size alignment : ℕ) → Ptr × H
  miCallocAlignedAt : H → (count size alignment offset : ℕ) → Ptr × H
  miReallocAlignedAt : H → Ptr → (newsize alignment offset : ℕ) → Ptr × H
  miUsableSize : H → Ptr → ℕ

/-- `MI_SMALL_SIZE_MAX` : 128 pointers. -/
def smallSizeMax (usizeBits : ℕ) : ℕ :=
  128 * (usizeBits / 8)

/-- The memory a heap is in. -/
structure Memory (H : Type*) extends View H UInt8 where
  write : H → Ptr → UInt8 → H

/-- What each entry does to the blocks of the heap `h`. -/
structure MimallocApi.KeepsBlocksAt {H : Type*} (M : MimallocApi H) (V : Memory H)
    (usizeBits : ℕ) (h : H) : Prop where
  malloc : ∀ size, V.New h (M.miMalloc h size).2 size none (M.miMalloc h size).1
  zalloc : ∀ size, V.New h (M.miZalloc h size).2 size (some 0) (M.miZalloc h size).1
  mallocAligned : ∀ size alignment,
    V.New h (M.miMallocAligned h size alignment).2 size none (M.miMallocAligned h size alignment).1
  zallocAligned : ∀ size alignment, V.New h (M.miZallocAligned h size alignment).2 size (some 0)
    (M.miZallocAligned h size alignment).1
  mallocAlignedAt : ∀ size alignment offset,
    V.New h (M.miMallocAlignedAt h size alignment offset).2 size none
      (M.miMallocAlignedAt h size alignment offset).1
  zallocAlignedAt : ∀ size alignment offset,
    V.New h (M.miZallocAlignedAt h size alignment offset).2 size (some 0)
      (M.miZallocAlignedAt h size alignment offset).1
  mallocSmall : ∀ size ≤ smallSizeMax usizeBits,
    V.New h (M.miMallocSmall h size).2 size none (M.miMallocSmall h size).1
  zallocSmall : ∀ size ≤ smallSizeMax usizeBits,
    V.New h (M.miZallocSmall h size).2 size (some 0) (M.miZallocSmall h size).1
  /-- `count * size` bytes, all zero, unless the product overflows. -/
  calloc : ∀ count size, count * size < 2 ^ usizeBits →
    V.New h (M.miCalloc h count size).2 (count * size) (some 0) (M.miCalloc h count size).1
  callocOverflow : ∀ count size, 2 ^ usizeBits ≤ count * size →
    V.Nothing h (M.miCalloc h count size).2 (M.miCalloc h count size).1
  callocAligned : ∀ count size alignment, count * size < 2 ^ usizeBits →
    V.New h (M.miCallocAligned h count size alignment).2 (count * size) (some 0)
      (M.miCallocAligned h count size alignment).1
  callocAlignedOverflow : ∀ count size alignment, 2 ^ usizeBits ≤ count * size →
    V.Nothing h (M.miCallocAligned h count size alignment).2
      (M.miCallocAligned h count size alignment).1
  callocAlignedAt : ∀ count size alignment offset, count * size < 2 ^ usizeBits →
    V.New h (M.miCallocAlignedAt h count size alignment offset).2 (count * size) (some 0)
      (M.miCallocAlignedAt h count size alignment offset).1
  callocAlignedAtOverflow : ∀ count size alignment offset, 2 ^ usizeBits ≤ count * size →
    V.Nothing h (M.miCallocAlignedAt h count size alignment offset).2
      (M.miCallocAlignedAt h count size alignment offset).1
  /-- Without overflow it is `malloc`. -/
  mallocn : ∀ count size, count * size < 2 ^ usizeBits →
    M.miMallocn h count size = M.miMalloc h (count * size)
  mallocnOverflow : ∀ count size, 2 ^ usizeBits ≤ count * size →
    V.Nothing h (M.miMallocn h count size).2 (M.miMallocn h count size).1
  /-- If null is returned, the block at `p` is not freed. -/
  realloc : ∀ p newsize, V.usable h p ≠ none →
    V.Resized h (M.miRealloc h p newsize).2 p newsize false (M.miRealloc h p newsize).1
  /-- With a null pointer it is `malloc`. -/
  reallocNull : ∀ newsize, M.miRealloc h null newsize = M.miMalloc h newsize
  reallocAligned : ∀ p newsize alignment, V.usable h p ≠ none →
    V.Resized h (M.miReallocAligned h p newsize alignment).2 p newsize false
      (M.miReallocAligned h p newsize alignment).1
  reallocAlignedAt : ∀ p newsize alignment offset, V.usable h p ≠ none →
    V.Resized h (M.miReallocAlignedAt h p newsize alignment offset).2 p newsize false
      (M.miReallocAlignedAt h p newsize alignment offset).1
  /-- Without overflow it is `realloc`. -/
  reallocn : ∀ p count size, count * size < 2 ^ usizeBits →
    M.miReallocn h p count size = M.miRealloc h p (count * size)
  reallocnOverflow : ∀ p count size, 2 ^ usizeBits ≤ count * size →
    V.Nothing h (M.miReallocn h p count size).2 (M.miReallocn h p count size).1
  /-- If null is returned, the block at `p` is freed. -/
  reallocf : ∀ p newsize, V.usable h p ≠ none →
    V.Resized h (M.miReallocf h p newsize).2 p newsize true (M.miReallocf h p newsize).1
  reallocfNull : ∀ newsize, M.miReallocf h null newsize = M.miMalloc h newsize
  /-- The block stays where it is, or null is returned and it is not freed. -/
  expand : ∀ p newsize, V.usable h p ≠ none →
    V.Nothing h (M.miExpand h p newsize).2 (M.miExpand h p newsize).1 ∨
      (M.miExpand h p newsize).1 = p ∧ p ≠ null ∧ V.Resizes h (M.miExpand h p newsize).2 p newsize p
  /-- With a null pointer it returns null, as it always returns `p` or null. -/
  expandNull : ∀ newsize, V.Nothing h (M.miExpand h null newsize).2 (M.miExpand h null newsize).1
  free : ∀ p, V.usable h p ≠ none → V.Releases h (M.miFree h p) p
  freeNull : ∀ p, V.Same h (M.miFree h null) p
  usableSize : ∀ p n, V.usable h p = some n → M.miUsableSize h p = n
  usableSizeNull : M.miUsableSize h null = 0
  write : ∀ p i b, V.Stores h (V.write h (p + i) b) p i b

/-- What each entry does to the blocks of every heap. -/
def MimallocApi.KeepsBlocks {H : Type*} (M : MimallocApi H) (V : Memory H) (usizeBits : ℕ) : Prop :=
  ∀ h, M.KeepsBlocksAt V usizeBits h

/-! ## A heap -/

/-- A heap that is filled from the bottom. -/
structure BlockHeap where
  /-- Everything from here on was never used. -/
  next : ℕ
  usable : ℕ → Option ℕ
  byte : ℕ → UInt8
  pos : 0 < next
  zero_eq : usable 0 = none
  below : ∀ p n, usable p = some n → p + n < next
  separate : Separate usable

namespace BlockHeap

/-- An empty heap. -/
def start : BlockHeap where
  next := 4096
  usable _ := none
  byte _ := 0
  pos := by decide
  zero_eq := rfl
  below _ _ h := absurd h nofun
  separate _ _ _ _ _ h := absurd h nofun

/-- The heap and its memory. -/
def memory : Memory BlockHeap where
  usable := usable
  byte := byte
  write h p b := { h with byte := Function.update h.byte p b }

/-- No block at `p`. -/
def drop (h : BlockHeap) (p : ℕ) : BlockHeap where
  next := h.next
  usable := Function.update h.usable p none
  byte := h.byte
  pos := h.pos
  zero_eq := by
    by_cases hp : p = 0
    · rw [hp, Function.update_self]
    · rw [Function.update_of_ne (Ne.symm hp), h.zero_eq]
  below q n hq := by
    rcases update_eq_some hq with ⟨-, hn⟩ | ⟨-, hn⟩
    · exact absurd hn nofun
    · exact h.below q n hn
  separate := h.separate.sub fun q _ hq => by
    rcases update_eq_some hq with ⟨-, hn⟩ | ⟨-, hn⟩
    · exact absurd hn nofun
    · exact hn

/-- A block of `size` bytes at `q`, above all others. -/
def add (h : BlockHeap) (size q : ℕ) (hq : h.next ≤ q) (byte : ℕ → UInt8) : BlockHeap where
  next := q + size + 1
  usable := Function.update h.usable q (some size)
  byte := byte
  pos := Nat.succ_pos _
  zero_eq := by
    have := h.pos
    rw [Function.update_of_ne (by omega), h.zero_eq]
  below o n ho := by
    rcases update_eq_some ho with ⟨rfl, hn⟩ | ⟨-, hn⟩
    · obtain rfl := Option.some.inj hn
      exact Nat.lt_succ_self _
    · have := h.below o n hn
      omega
  separate := by
    refine h.separate.insert (Function.update_self _ _ _) fun o m hoq ho => ?_
    rw [Function.update_of_ne hoq] at ho
    have := h.below o m ho
    exact ⟨ho, Or.inr (by omega)⟩

/-- Where a new block goes, for its address plus `offset` to be aligned. -/
def bottom (h : BlockHeap) (align offset : ℕ) : ℕ :=
  h.next + (align - (h.next + offset) % align) % align

theorem next_le_bottom (h : BlockHeap) (align offset : ℕ) : h.next ≤ h.bottom align offset :=
  Nat.le_add_right _ _

/-- A new block, filled or not. There is none with alignment zero. -/
def alloc (h : BlockHeap) (size align offset : ℕ) (fill : Option UInt8) : ℕ × BlockHeap :=
  let q := h.bottom align offset
  if align = 0 then (0, h)
  else
    (q, h.add size q (h.next_le_bottom align offset) fun a =>
      if q ≤ a ∧ a < q + size then fill.getD (h.byte a) else h.byte a)

/-- A block is resized in place if it is large enough and aligned, and copied to a new one if
not. With no block there is a new one. -/
def resize (h : BlockHeap) (p size align offset : ℕ) : ℕ × BlockHeap :=
  match h.usable p with
  | none => h.alloc size align offset none
  | some n =>
    let q := h.bottom align offset
    if size ≤ n ∧ align ∣ p + offset then (p, h)
    else if align = 0 then (0, h)
    else
      (q, (h.drop p).add size q (h.next_le_bottom align offset) fun a =>
        if q ≤ a ∧ a < q + n then h.byte (p + (a - q)) else h.byte a)

/-- A new block if the product does not overflow. -/
def allocArray (h : BlockHeap) (count size align offset : ℕ) (fill : Option UInt8) :
    ℕ × BlockHeap :=
  if count * size < 2 ^ 64 then h.alloc (count * size) align offset fill else (0, h)

/-- A mimalloc on this heap, with 64-bit sizes. -/
def mimalloc : MimallocApi BlockHeap where
  miMalloc h size := h.alloc size 16 0 none
  miZalloc h size := h.alloc size 16 0 (some 0)
  miRealloc h p newsize := h.resize p newsize 16 0
  miMallocAligned h size alignment := h.alloc size alignment 0 none
  miZallocAligned h size alignment := h.alloc size alignment 0 (some 0)
  miReallocAligned h p newsize alignment := h.resize p newsize alignment 0
  miFree := drop
  miCalloc h count size := h.allocArray count size 16 0 (some 0)
  miMallocn h count size := h.allocArray count size 16 0 none
  miReallocn h p count size :=
    if count * size < 2 ^ 64 then h.resize p (count * size) 16 0 else (0, h)
  miReallocf h p newsize := h.resize p newsize 16 0
  miExpand h p newsize :=
    match h.usable p with
    | none => (0, h)
    | some n => if newsize ≤ n then (p, h) else (0, h)
  miMallocSmall h size := h.alloc size 16 0 none
  miZallocSmall h size := h.alloc size 16 0 (some 0)
  miMallocAlignedAt h size alignment offset := h.alloc size alignment offset none
  miZallocAlignedAt h size alignment offset := h.alloc size alignment offset (some 0)
  miCallocAligned h count size alignment := h.allocArray count size alignment 0 (some 0)
  miCallocAlignedAt h count size alignment offset :=
    h.allocArray count size alignment offset (some 0)
  miReallocAlignedAt h p newsize alignment offset := h.resize p newsize alignment offset
  miUsableSize h p := (h.usable p).getD 0

/-- Below the bottom no byte is changed. -/
theorem same_add {h : BlockHeap} {size q p : ℕ} (hq : h.next ≤ q) {byte : ℕ → UInt8}
    (hbyte : ∀ a < q, byte a = h.byte a) (hpq : p ≠ q) :
    memory.Same h (h.add size q hq byte) p := by
  refine ⟨Function.update_of_ne hpq _ _, fun n hn i hi => hbyte _ ?_⟩
  have := h.below p n hn
  omega

theorem fresh (h : BlockHeap) {q : ℕ} (hq : h.next ≤ q) : h.usable q = none := by
  cases hn : h.usable q with
  | none => rfl
  | some n =>
    have := h.below q n hn
    omega

/-- A block above all others is a new one. -/
theorem allocates_add (h : BlockHeap) {size q : ℕ} (hq : h.next ≤ q) {byte : ℕ → UInt8}
    {fill : Option UInt8} (hbyte : ∀ a < q, byte a = h.byte a)
    (hfill : ∀ b, fill = some b → ∀ i < size, byte (q + i) = b) :
    memory.Allocates h (h.add size q hq byte) size fill q where
  fresh := h.fresh hq
  room := by
    refine ⟨size, le_rfl, Function.update_self _ _ _, fun p m hp => ?_⟩
    have := h.below p m hp
    exact Or.inr (by omega)
  filled := hfill
  others p hp := same_add hq hbyte hp

theorem nothing_self (h : BlockHeap) : memory.Nothing h h 0 :=
  ⟨rfl, fun _ => ⟨rfl, fun _ _ _ _ => rfl⟩⟩

theorem new_alloc (h : BlockHeap) (size align offset : ℕ) (fill : Option UInt8) :
    memory.New h (h.alloc size align offset fill).2 size fill
      (h.alloc size align offset fill).1 := by
  have hpos := h.pos
  have hle := h.next_le_bottom align offset
  unfold alloc
  dsimp only
  split_ifs
  · exact Or.inl h.nothing_self
  · refine Or.inr ⟨?_, h.allocates_add hle (fun a ha => if_neg (by omega)) fun b hb i hi => ?_⟩
    · change h.bottom align offset ≠ 0
      omega
    · subst hb
      exact if_pos ⟨Nat.le_add_right _ _, Nat.add_lt_add_left hi _⟩

theorem releases_drop (h : BlockHeap) (p : ℕ) : memory.Releases h (h.drop p) p where
  gone := Function.update_self _ _ _
  others _ hq := ⟨Function.update_of_ne hq _ _, fun _ _ _ _ => rfl⟩

theorem ne_zero (h : BlockHeap) {p : ℕ} (hp : h.usable p ≠ none) : p ≠ 0 := by
  rintro rfl
  exact hp h.zero_eq

/-- A block that is large enough is resized in place. -/
theorem resizes_self (h : BlockHeap) {p n size : ℕ} (hp : h.usable p = some n) (hle : size ≤ n) :
    memory.Resizes h h p size p where
  place := Or.inl rfl
  room := ⟨n, hle, hp, fun o m hop ho => h.separate p o n m (Ne.symm hop) hp ho⟩
  copied _ _ _ _ _ := rfl
  others _ _ _ := ⟨rfl, fun _ _ _ _ => rfl⟩

/-- A block that is not is copied to the bottom. -/
theorem resizes_add (h : BlockHeap) {p n size q : ℕ} (hp : h.usable p = some n)
    (hq : h.next ≤ q) {byte : ℕ → UInt8} (hcopy : ∀ i < n, byte (q + i) = h.byte (p + i))
    (hbyte : ∀ a < q, byte a = h.byte a) :
    memory.Resizes h ((h.drop p).add size q hq byte) p size q := by
  have hbelow := h.below p n hp
  have hpq : p ≠ q := by omega
  refine ⟨Or.inr ⟨h.fresh hq, ?_⟩, ⟨size, le_rfl, Function.update_self _ _ _, fun o m _ ho => ?_⟩,
    fun m hm i hi _ => ?_, fun o hop hoq => ?_⟩
  · change Function.update (Function.update h.usable p none) q (some size) p = none
    rw [Function.update_of_ne hpq, Function.update_self]
  · have := h.below o m ho
    exact Or.inr (by omega)
  · obtain rfl : n = m := Option.some.inj (hp.symm.trans hm)
    exact hcopy i hi
  · exact ((h.releases_drop p).others o hop).trans (same_add (h := h.drop p) hq hbyte hoq)

theorem resized_resize (h : BlockHeap) {p : ℕ} (size align offset : ℕ) {frees : Bool}
    (hp : h.usable p ≠ none) (halign : frees = true → align ≠ 0) :
    memory.Resized h (h.resize p size align offset).2 p size frees
      (h.resize p size align offset).1 := by
  obtain ⟨n, hn⟩ := Option.ne_none_iff_exists'.mp hp
  have hzero := h.ne_zero hp
  have hbottom := h.next_le_bottom align offset
  have hbelow := h.below p n hn
  unfold resize
  rw [hn]
  dsimp only
  split_ifs with hfits hnone
  · exact Or.inr ⟨hzero, h.resizes_self hn hfits.1⟩
  · refine Or.inl ?_
    rw [if_neg fun hfrees => halign hfrees hnone]
    exact h.nothing_self
  · refine Or.inr ⟨by omega,
      h.resizes_add hn hbottom (fun i hi => ?_) fun a ha => if_neg (by omega)⟩
    rw [if_pos ⟨Nat.le_add_right _ _, Nat.add_lt_add_left hi _⟩, Nat.add_sub_cancel_left]

theorem resize_zero (h : BlockHeap) (size align offset : ℕ) :
    h.resize 0 size align offset = h.alloc size align offset none := by
  rw [resize, h.zero_eq]

/-- A product that does not overflow is an amount of memory. -/
theorem new_allocArray (h : BlockHeap) {count size : ℕ} (hlt : count * size < 2 ^ 64)
    (align offset : ℕ) (fill : Option UInt8) :
    memory.New h (h.allocArray count size align offset fill).2 (count * size) fill
      (h.allocArray count size align offset fill).1 := by
  rw [allocArray, if_pos hlt]
  exact h.new_alloc (count * size) align offset fill

theorem nothing_allocArray (h : BlockHeap) {count size : ℕ} (hle : 2 ^ 64 ≤ count * size)
    (align offset : ℕ) (fill : Option UInt8) :
    memory.Nothing h (h.allocArray count size align offset fill).2
      (h.allocArray count size align offset fill).1 := by
  rw [allocArray, if_neg (not_lt.mpr hle)]
  exact h.nothing_self

/-- The heap does to its blocks what mimalloc does. -/
theorem keepsBlocks : mimalloc.KeepsBlocks memory 64 := fun h =>
  { malloc := fun size => h.new_alloc size 16 0 none
    zalloc := fun size => h.new_alloc size 16 0 (some 0)
    mallocAligned := fun size alignment => h.new_alloc size alignment 0 none
    zallocAligned := fun size alignment => h.new_alloc size alignment 0 (some 0)
    mallocAlignedAt := fun size alignment offset => h.new_alloc size alignment offset none
    zallocAlignedAt := fun size alignment offset => h.new_alloc size alignment offset (some 0)
    mallocSmall := fun size _ => h.new_alloc size 16 0 none
    zallocSmall := fun size _ => h.new_alloc size 16 0 (some 0)
    calloc := fun _ _ hlt => h.new_allocArray hlt 16 0 (some 0)
    callocOverflow := fun _ _ hle => h.nothing_allocArray hle 16 0 (some 0)
    callocAligned := fun _ _ alignment hlt => h.new_allocArray hlt alignment 0 (some 0)
    callocAlignedOverflow := fun _ _ alignment hle => h.nothing_allocArray hle alignment 0 (some 0)
    callocAlignedAt := fun _ _ alignment offset hlt =>
      h.new_allocArray hlt alignment offset (some 0)
    callocAlignedAtOverflow := fun _ _ alignment offset hle =>
      h.nothing_allocArray hle alignment offset (some 0)
    mallocn := fun _ _ hlt => if_pos hlt
    mallocnOverflow := fun _ _ hle => h.nothing_allocArray hle 16 0 none
    realloc := fun _ newsize hp => h.resized_resize newsize 16 0 hp nofun
    reallocNull := fun newsize => h.resize_zero newsize 16 0
    reallocAligned := fun _ newsize alignment hp => h.resized_resize newsize alignment 0 hp nofun
    reallocAlignedAt := fun _ newsize alignment offset hp =>
      h.resized_resize newsize alignment offset hp nofun
    reallocn := fun _ _ _ hlt => if_pos hlt
    reallocnOverflow := fun p count size hle => by
      rw [show mimalloc.miReallocn h p count size = (0, h) from if_neg (not_lt.mpr hle)]
      exact h.nothing_self
    reallocf := fun _ newsize hp => h.resized_resize newsize 16 0 hp fun _ => by decide
    reallocfNull := fun newsize => h.resize_zero newsize 16 0
    expand := fun p newsize hp => by
      obtain ⟨n, hn⟩ : ∃ n, h.usable p = some n := Option.ne_none_iff_exists'.mp hp
      have hexpand : mimalloc.miExpand h p newsize = if newsize ≤ n then (p, h) else (0, h) := by
        simp only [mimalloc, hn]
      rw [hexpand]
      split_ifs with hle
      · exact Or.inr ⟨rfl, h.ne_zero hp, h.resizes_self hn hle⟩
      · exact Or.inl h.nothing_self
    expandNull := fun newsize => by
      rw [show mimalloc.miExpand h null newsize = (0, h) by simp only [mimalloc, null, h.zero_eq]]
      exact h.nothing_self
    free := fun p _ => h.releases_drop p
    freeNull := fun q => by
      refine ⟨?_, fun _ _ _ _ => rfl⟩
      change Function.update h.usable 0 none q = h.usable q
      by_cases hq : q = 0
      · rw [hq, Function.update_self, h.zero_eq]
      · rw [Function.update_of_ne hq]
    usableSize := fun p n hn => by
      rw [show mimalloc.miUsableSize h p = (h.usable p).getD 0 from rfl,
        show h.usable p = some n from hn]
      rfl
    usableSizeNull := congrArg (Option.getD · 0) h.zero_eq
    write := fun _ _ _ =>
      { usable := rfl
        written := Function.update_self _ _ _
        others := fun _ ha => Function.update_of_ne ha _ _ } }

theorem dvd_bottom (h : BlockHeap) {align : ℕ} (halign : align ≠ 0) (offset : ℕ) :
    align ∣ h.bottom align offset + offset := by
  have hmod := Nat.mod_lt (h.next + offset) (Nat.pos_of_ne_zero halign)
  have hdiv := Nat.div_add_mod (h.next + offset) align
  unfold bottom
  by_cases hzero : (h.next + offset) % align = 0
  · rw [hzero, Nat.sub_zero, Nat.mod_self, Nat.add_zero]
    exact Nat.dvd_of_mod_eq_zero hzero
  · rw [Nat.mod_eq_of_lt (by omega)]
    have hsum : h.next + (align - (h.next + offset) % align) + offset =
        align * ((h.next + offset) / align) + align := by omega
    rw [hsum]
    exact Nat.dvd_add (Nat.dvd_mul_right _ _) (Nat.dvd_refl _)

theorem alignedTo_alloc (h : BlockHeap) (size align : ℕ) (fill : Option UInt8) :
    AlignedTo align (h.alloc size align 0 fill).1 := by
  unfold alloc
  dsimp only
  split_ifs with halign
  · exact Or.inl rfl
  · exact Or.inr (h.dvd_bottom halign 0)

theorem alignedTo_resize (h : BlockHeap) (p size align : ℕ) :
    AlignedTo align (h.resize p size align 0).1 := by
  unfold resize
  split
  · exact h.alignedTo_alloc size align none
  · dsimp only
    split_ifs with hfits halign
    · exact Or.inr hfits.2
    · exact Or.inl rfl
    · exact Or.inr (h.dvd_bottom halign 0)

/-- What is aligned to 16 is aligned to every power of two up to 16. -/
theorem naturallyAligned_of_alignedTo {size p : ℕ} (hp : AlignedTo 16 p) :
    NaturallyAligned 16 size p := by
  rcases hp with hnull | hdvd
  · exact Or.inl hnull
  · exact Or.inr fun a ha hmin _ =>
      Nat.dvd_trans (SpreadsMalloc.isPowerOfTwo_dvd ha ⟨4, rfl⟩ hmin) hdvd

/-- The heap aligns its blocks as mimalloc does. -/
theorem guarantees_blockHeap : mimalloc.toMimalloc.Guarantees 16 where
  malloc h size := naturallyAligned_of_alignedTo (h.alignedTo_alloc size 16 none)
  zalloc h size := naturallyAligned_of_alignedTo (h.alignedTo_alloc size 16 (some 0))
  realloc h p newsize := Or.inr (naturallyAligned_of_alignedTo (h.alignedTo_resize p newsize 16))
  mallocAligned h size alignment := h.alignedTo_alloc size alignment none
  zallocAligned h size alignment := h.alignedTo_alloc size alignment (some 0)
  reallocAligned h p newsize alignment := h.alignedTo_resize p newsize alignment

end BlockHeap

end SpreadsNative
