import SpreadsNative.MimallocApi

/-!
# One heap, two clients

In a process that loads the native library, Rust code allocates through the global
allocator `SpreadsMalloc` and managed code through `Mem` of `dotnet/src/Spreads.Native/Mem.cs`,
whose externs call `spreads_mem_*` of `rs/src/mem_allocation.rs`. Both end in one mimalloc.

`process` runs the calls of both sides, and their reads and writes of the blocks they hold,
in any order. Beside the heap it keeps the ledger of `Blocks`. `process_backs` : in every run
in which each side obeys its contract, mimalloc's blocks are the blocks the two sides hold,
none overlap, and every byte that is read is the one last written to it.
`other_side_undisturbed` : nothing that one side does changes a block of the other.
-/

open Blocks

namespace SpreadsNative

/-! ## The calls -/

section Wrappers

variable {H : Type*} (M : MimallocApi H) (h : H)

/-- `spreads_mem_calloc`. -/
def spreadsMemCalloc (count size : ℕ) : Ptr × H :=
  M.miCalloc h count size

/-- `spreads_mem_malloc`. -/
def spreadsMemMalloc (size : ℕ) : Ptr × H :=
  M.miMalloc h size

/-- `spreads_mem_realloc`. -/
def spreadsMemRealloc (p : Ptr) (newsize : ℕ) : Ptr × H :=
  M.miRealloc h p newsize

/-- `spreads_mem_expand`. -/
def spreadsMemExpand (p : Ptr) (newsize : ℕ) : Ptr × H :=
  M.miExpand h p newsize

/-- `spreads_mem_free`. -/
def spreadsMemFree (p : Ptr) : H :=
  M.miFree h p

/-- `spreads_mem_zalloc`. -/
def spreadsMemZalloc (size : ℕ) : Ptr × H :=
  M.miZalloc h size

/-- `spreads_mem_mallocn`. -/
def spreadsMemMallocn (count size : ℕ) : Ptr × H :=
  M.miMallocn h count size

/-- `spreads_mem_reallocn`. -/
def spreadsMemReallocn (p : Ptr) (count size : ℕ) : Ptr × H :=
  M.miReallocn h p count size

/-- `spreads_mem_reallocf`. -/
def spreadsMemReallocf (p : Ptr) (newsize : ℕ) : Ptr × H :=
  M.miReallocf h p newsize

/-- `spreads_mem_usable_size`. -/
def spreadsMemUsableSize (p : Ptr) : ℕ :=
  M.miUsableSize h p

/-- `spreads_mem_malloc_aligned`. -/
def spreadsMemMallocAligned (size alignment : ℕ) : Ptr × H :=
  M.miMallocAligned h size alignment

/-- `spreads_mem_zalloc_aligned`. -/
def spreadsMemZallocAligned (size alignment : ℕ) : Ptr × H :=
  M.miZallocAligned h size alignment

/-- `spreads_mem_realloc_aligned`. -/
def spreadsMemReallocAligned (p : Ptr) (newsize alignment : ℕ) : Ptr × H :=
  M.miReallocAligned h p newsize alignment

/-- `spreads_mem_malloc_small`. -/
def spreadsMemMallocSmall (size : ℕ) : Ptr × H :=
  M.miMallocSmall h size

/-- `spreads_mem_zalloc_small`. -/
def spreadsMemZallocSmall (size : ℕ) : Ptr × H :=
  M.miZallocSmall h size

/-- `spreads_mem_malloc_aligned_at`. -/
def spreadsMemMallocAlignedAt (size alignment offset : ℕ) : Ptr × H :=
  M.miMallocAlignedAt h size alignment offset

/-- `spreads_mem_zalloc_aligned_at`. -/
def spreadsMemZallocAlignedAt (size alignment offset : ℕ) : Ptr × H :=
  M.miZallocAlignedAt h size alignment offset

/-- `spreads_mem_calloc_aligned`. -/
def spreadsMemCallocAligned (count size alignment : ℕ) : Ptr × H :=
  M.miCallocAligned h count size alignment

/-- `spreads_mem_calloc_aligned_at`. -/
def spreadsMemCallocAlignedAt (count size alignment offset : ℕ) : Ptr × H :=
  M.miCallocAlignedAt h count size alignment offset

/-- `spreads_mem_realloc_aligned_at`. -/
def spreadsMemReallocAlignedAt (p : Ptr) (newsize alignment offset : ℕ) : Ptr × H :=
  M.miReallocAlignedAt h p newsize alignment offset

end Wrappers

/-- A call of `Mem` that allocates or frees. -/
inductive Mem.Call where
  | calloc (count size : ℕ)
  | malloc (size : ℕ)
  | realloc (p : Ptr) (newsize : ℕ)
  | free (p : Ptr)
  | zalloc (size : ℕ)
  | mallocn (count size : ℕ)
  | reallocn (p : Ptr) (count size : ℕ)
  | reallocf (p : Ptr) (newsize : ℕ)
  | expand (p : Ptr) (newsize : ℕ)
  | mallocAligned (size alignment : ℕ)
  | zallocAligned (size alignment : ℕ)
  | reallocAligned (p : Ptr) (newsize alignment : ℕ)
  | mallocSmall (size : ℕ)
  | zallocSmall (size : ℕ)
  | mallocAlignedAt (size alignment offset : ℕ)
  | zallocAlignedAt (size alignment offset : ℕ)
  | callocAligned (count size alignment : ℕ)
  | callocAlignedAt (count size alignment offset : ℕ)
  | reallocAlignedAt (p : Ptr) (newsize alignment offset : ℕ)

/-- The entry point of the extern. `Free` returns nothing. -/
def Mem.Call.perform {H : Type*} (M : MimallocApi H) (h : H) : Mem.Call → Ptr × H
  | .calloc count size => spreadsMemCalloc M h count size
  | .malloc size => spreadsMemMalloc M h size
  | .realloc p newsize => spreadsMemRealloc M h p newsize
  | .free p => (null, spreadsMemFree M h p)
  | .zalloc size => spreadsMemZalloc M h size
  | .mallocn count size => spreadsMemMallocn M h count size
  | .reallocn p count size => spreadsMemReallocn M h p count size
  | .reallocf p newsize => spreadsMemReallocf M h p newsize
  | .expand p newsize => spreadsMemExpand M h p newsize
  | .mallocAligned size alignment => spreadsMemMallocAligned M h size alignment
  | .zallocAligned size alignment => spreadsMemZallocAligned M h size alignment
  | .reallocAligned p newsize alignment => spreadsMemReallocAligned M h p newsize alignment
  | .mallocSmall size => spreadsMemMallocSmall M h size
  | .zallocSmall size => spreadsMemZallocSmall M h size
  | .mallocAlignedAt size alignment offset => spreadsMemMallocAlignedAt M h size alignment offset
  | .zallocAlignedAt size alignment offset => spreadsMemZallocAlignedAt M h size alignment offset
  | .callocAligned count size alignment => spreadsMemCallocAligned M h count size alignment
  | .callocAlignedAt count size alignment offset =>
    spreadsMemCallocAlignedAt M h count size alignment offset
  | .reallocAlignedAt p newsize alignment offset =>
    spreadsMemReallocAlignedAt M h p newsize alignment offset

/-- The call of `SpreadsMalloc`. `dealloc` returns nothing. -/
def SpreadsMalloc.Call.perform {H : Type*} (M : Mimalloc H) (target : Target) (h : H) :
    SpreadsMalloc.Call → Ptr × H
  | .alloc layout => SpreadsMalloc.alloc M target h layout
  | .allocZeroed layout => SpreadsMalloc.allocZeroed M target h layout
  | .dealloc ptr layout => (null, SpreadsMalloc.dealloc M h ptr layout)
  | .realloc ptr layout newSize => SpreadsMalloc.realloc M target h ptr layout newSize

/-! ## What the calls are for -/

/-- Who holds a block. The Rust side knows its layout. -/
inductive Owner where
  | rust (layout : Layout)
  | managed

/-- The two sides. -/
inductive Side where
  | rust
  | managed
  deriving DecidableEq

theorem Side.rust_of_ne_managed {side : Side} (h : side ≠ .managed) : side = .rust := by
  cases side with
  | rust => rfl
  | managed => exact absurd rfl h

/-- The side of an owner. -/
def Owner.side : Owner → Side
  | .rust _ => .rust
  | .managed => .managed

/-- The operation a call of `SpreadsMalloc` is. -/
def SpreadsMalloc.Call.op : SpreadsMalloc.Call → Op Owner UInt8
  | .alloc layout => .new (.rust layout) layout.size none
  | .allocZeroed layout => .new (.rust layout) layout.size (some 0)
  | .dealloc ptr _ => .free ptr
  | .realloc ptr layout newSize => .resize ptr (.rust (layout.resize newSize)) newSize false

/-- The operation a call of `Mem` is. A product that overflows asks for nothing. -/
def Mem.Call.op (usizeBits : ℕ) : Mem.Call → Op Owner UInt8
  | .calloc count size | .callocAligned count size _ | .callocAlignedAt count size _ _ =>
    if count * size < 2 ^ usizeBits then .new .managed (count * size) (some 0) else .nothing
  | .malloc size | .mallocAligned size _ | .mallocAlignedAt size _ _ | .mallocSmall size =>
    .new .managed size none
  | .zalloc size | .zallocAligned size _ | .zallocAlignedAt size _ _ | .zallocSmall size =>
    .new .managed size (some 0)
  | .mallocn count size =>
    if count * size < 2 ^ usizeBits then .new .managed (count * size) none else .nothing
  | .realloc p newsize =>
    if p = null then .new .managed newsize none else .resize p .managed newsize false
  | .reallocn p count size =>
    if count * size < 2 ^ usizeBits then
      if p = null then .new .managed (count * size) none
      else .resize p .managed (count * size) false
    else .nothing
  | .reallocf p newsize =>
    if p = null then .new .managed newsize none else .resize p .managed newsize true
  | .expand p newsize => if p = null then .nothing else .resize p .managed newsize false
  | .reallocAligned p newsize _ | .reallocAlignedAt p newsize _ _ =>
    .resize p .managed newsize false
  | .free p => if p = null then .nothing else .free p

/-- The contract of `GlobalAlloc`. -/
def SpreadsMalloc.Call.Obeys (l : Ledger Owner UInt8) : SpreadsMalloc.Call → Prop
  | .alloc layout | .allocZeroed layout => 0 < layout.size
  | .dealloc ptr layout => ∃ b, l ptr = some b ∧ b.owner = .rust layout
  | .realloc ptr layout newSize => (∃ b, l ptr = some b ∧ b.owner = .rust layout) ∧ 0 < newSize

/-- The contract of `Mem` : a block is resized or freed while managed code holds it, and a
small block is small. Where the comments allow it, the pointer may be null. -/
def Mem.Call.Obeys (usizeBits : ℕ) (l : Ledger Owner UInt8) : Mem.Call → Prop
  | .realloc p _ | .reallocn p _ _ | .reallocf p _ | .expand p _ | .free p =>
    p = null ∨ ∃ b, l p = some b ∧ b.owner = .managed
  | .reallocAligned p _ _ | .reallocAlignedAt p _ _ _ => ∃ b, l p = some b ∧ b.owner = .managed
  | .mallocSmall size | .zallocSmall size => size ≤ smallSizeMax usizeBits
  | .calloc _ _ | .malloc _ | .zalloc _ | .mallocn _ _ | .mallocAligned _ _ | .zallocAligned _ _
  | .mallocAlignedAt _ _ _ | .zallocAlignedAt _ _ _ | .callocAligned _ _ _
  | .callocAlignedAt _ _ _ _ => True

section

variable {H : Type*} {M : MimallocApi H} {V : Memory H} {usizeBits : ℕ} {h : H}
  {l : Ledger Owner UInt8}

/-- A call of `SpreadsMalloc` is about a block of the Rust side. -/
theorem SpreadsMalloc.Call.subject_side {c : SpreadsMalloc.Call} (hc : c.Obeys l) {p : Ptr}
    (hp : c.op.subject = some p) : ∃ b, l p = some b ∧ b.owner.side = .rust := by
  cases c with
  | alloc layout => exact absurd hp nofun
  | allocZeroed layout => exact absurd hp nofun
  | dealloc ptr layout =>
    obtain rfl := Option.some.inj hp
    obtain ⟨b, hb, howner⟩ := hc
    exact ⟨b, hb, by rw [howner]; rfl⟩
  | realloc ptr layout newSize =>
    obtain rfl := Option.some.inj hp
    obtain ⟨⟨b, hb, howner⟩, -⟩ := hc
    exact ⟨b, hb, by rw [howner]; rfl⟩

/-- A call of `SpreadsMalloc` makes blocks of the Rust side only. -/
theorem SpreadsMalloc.Call.side_op {c : SpreadsMalloc.Call} {owner : Owner}
    (howner : c.op.owner = some owner) : owner.side = .rust := by
  cases c with
  | dealloc => exact absurd howner nofun
  | alloc | allocZeroed | realloc =>
    obtain rfl := Option.some.inj howner
    rfl

/-- A call of `SpreadsMalloc` does what it is for, whichever entries it picks. -/
theorem SpreadsMalloc.Call.meets (target : Target) (hM : M.KeepsBlocksAt V usizeBits h)
    (hl : Backs V.toView h l) {c : SpreadsMalloc.Call} (hc : c.Obeys l) :
    c.op.Meets V.toView h (c.perform M.toMimalloc target h).2
      (c.perform M.toMimalloc target h).1 := by
  have halloc : ∀ {unaligned : H → ℕ → Ptr × H} {aligned : H → ℕ → ℕ → Ptr × H}
      {fill : Option UInt8} (layout : Layout),
      (∀ size, V.New h (unaligned h size).2 size fill (unaligned h size).1) →
      (∀ size align, V.New h (aligned h size align).2 size fill (aligned h size align).1) →
      V.New h (allocVia unaligned aligned target h layout).2 layout.size fill
        (allocVia unaligned aligned target h layout).1 := by
    intro unaligned aligned fill layout hu ha
    unfold allocVia
    split_ifs
    · exact hu layout.size
    · -- on macOS a large alignment is refused before mimalloc is called
      exact Or.inl ⟨rfl, fun p => ⟨rfl, fun _ _ _ _ => rfl⟩⟩
    · exact ha layout.size layout.align
  cases c with
  | alloc layout => exact halloc layout hM.malloc hM.mallocAligned
  | allocZeroed layout => exact halloc layout hM.zalloc hM.zallocAligned
  | dealloc ptr layout =>
    obtain ⟨b, hb, -⟩ := hc
    exact hM.free ptr (hl.usable_ne_none hb)
  | realloc ptr layout newSize =>
    obtain ⟨⟨b, hb, -⟩, -⟩ := hc
    change V.Resized h (SpreadsMalloc.realloc M.toMimalloc target h ptr layout newSize).2 ptr
      newSize false (SpreadsMalloc.realloc M.toMimalloc target h ptr layout newSize).1
    unfold SpreadsMalloc.realloc
    split_ifs
    · exact hM.realloc ptr newSize (hl.usable_ne_none hb)
    · exact hM.reallocAligned ptr newSize layout.align (hl.usable_ne_none hb)

/-- A call of `Mem` is about a block of managed code. -/
theorem Mem.Call.subject_side {c : Mem.Call} (hc : c.Obeys usizeBits l) {p : Ptr}
    (hp : (c.op usizeBits).subject = some p) : ∃ b, l p = some b ∧ b.owner.side = .managed := by
  have hside : ∀ {p : Ptr}, (∃ b, l p = some b ∧ b.owner = .managed) →
      ∃ b, l p = some b ∧ b.owner.side = .managed := by
    rintro p ⟨b, hb, howner⟩
    exact ⟨b, hb, by rw [howner]; rfl⟩
  cases c with
  | malloc | zalloc | mallocAligned | zallocAligned | mallocAlignedAt | zallocAlignedAt
  | mallocSmall | zallocSmall =>
    exact absurd hp nofun
  | calloc | callocAligned | callocAlignedAt | mallocn =>
    simp only [Mem.Call.op] at hp
    split_ifs at hp <;> exact absurd hp nofun
  | reallocAligned | reallocAlignedAt =>
    obtain rfl := Option.some.inj hp
    exact hside hc
  | realloc | reallocf | expand | free =>
    simp only [Mem.Call.op] at hp
    split_ifs at hp with hq
    · exact absurd hp nofun
    · obtain rfl := Option.some.inj hp
      exact hside (hc.resolve_left hq)
  | reallocn =>
    simp only [Mem.Call.op] at hp
    split_ifs at hp with hlt hq
    · exact absurd hp nofun
    · obtain rfl := Option.some.inj hp
      exact hside (hc.resolve_left hq)
    · exact absurd hp nofun

/-- A call of `Mem` makes blocks of managed code only. -/
theorem Mem.Call.owner_op {usizeBits : ℕ} {c : Mem.Call} {owner : Owner}
    (howner : (c.op usizeBits).owner = some owner) : owner = .managed := by
  cases c with
  | malloc | zalloc | mallocAligned | zallocAligned | mallocAlignedAt | zallocAlignedAt
  | mallocSmall | zallocSmall | reallocAligned | reallocAlignedAt =>
    exact (Option.some.inj howner).symm
  | calloc | callocAligned | callocAlignedAt | mallocn | realloc | reallocn | reallocf | expand
  | free =>
    simp only [Mem.Call.op] at howner
    split_ifs at howner <;>
      first
        | exact (Option.some.inj howner).symm
        | exact absurd howner nofun

/-- A call of `Mem` does what it is for. -/
theorem Mem.Call.meets (hM : M.KeepsBlocksAt V usizeBits h) (hl : Backs V.toView h l)
    {c : Mem.Call} (hc : c.Obeys usizeBits l) :
    (c.op usizeBits).Meets V.toView h (c.perform M h).2 (c.perform M h).1 := by
  have hheld : ∀ {p : Ptr}, (∃ b, l p = some b ∧ b.owner = .managed) → V.usable h p ≠ none := by
    rintro p ⟨b, hb, -⟩
    exact hl.usable_ne_none hb
  cases c with
  | malloc size => exact hM.malloc size
  | zalloc size => exact hM.zalloc size
  | mallocAligned size alignment => exact hM.mallocAligned size alignment
  | zallocAligned size alignment => exact hM.zallocAligned size alignment
  | mallocAlignedAt size alignment offset => exact hM.mallocAlignedAt size alignment offset
  | zallocAlignedAt size alignment offset => exact hM.zallocAlignedAt size alignment offset
  | mallocSmall size => exact hM.mallocSmall size hc
  | zallocSmall size => exact hM.zallocSmall size hc
  | calloc count size =>
    simp only [Mem.Call.op]
    split_ifs with hlt
    · exact hM.calloc count size hlt
    · exact hM.callocOverflow count size (not_lt.mp hlt)
  | callocAligned count size alignment =>
    simp only [Mem.Call.op]
    split_ifs with hlt
    · exact hM.callocAligned count size alignment hlt
    · exact hM.callocAlignedOverflow count size alignment (not_lt.mp hlt)
  | callocAlignedAt count size alignment offset =>
    simp only [Mem.Call.op]
    split_ifs with hlt
    · exact hM.callocAlignedAt count size alignment offset hlt
    · exact hM.callocAlignedAtOverflow count size alignment offset (not_lt.mp hlt)
  | mallocn count size =>
    simp only [Mem.Call.op]
    split_ifs with hlt
    · rw [Mem.Call.perform, spreadsMemMallocn, hM.mallocn count size hlt]
      exact hM.malloc (count * size)
    · exact hM.mallocnOverflow count size (not_lt.mp hlt)
  | realloc p newsize =>
    simp only [Mem.Call.op]
    split_ifs with hp
    · rw [Mem.Call.perform, spreadsMemRealloc, hp, hM.reallocNull]
      exact hM.malloc newsize
    · exact hM.realloc p newsize (hheld (hc.resolve_left hp))
  | reallocn p count size =>
    simp only [Mem.Call.op]
    split_ifs with hlt hp
    · rw [Mem.Call.perform, spreadsMemReallocn, hM.reallocn p count size hlt, hp, hM.reallocNull]
      exact hM.malloc (count * size)
    · rw [Mem.Call.perform, spreadsMemReallocn, hM.reallocn p count size hlt]
      exact hM.realloc p (count * size) (hheld (hc.resolve_left hp))
    · exact hM.reallocnOverflow p count size (not_lt.mp hlt)
  | reallocf p newsize =>
    simp only [Mem.Call.op]
    split_ifs with hp
    · rw [Mem.Call.perform, spreadsMemReallocf, hp, hM.reallocfNull]
      exact hM.malloc newsize
    · exact hM.reallocf p newsize (hheld (hc.resolve_left hp))
  | expand p newsize =>
    simp only [Mem.Call.op]
    split_ifs with hp
    · rw [Mem.Call.perform, spreadsMemExpand, hp]
      exact hM.expandNull newsize
    · rcases hM.expand p newsize (hheld (hc.resolve_left hp)) with hnull | ⟨hq, hne, hresizes⟩
      · exact Or.inl hnull
      · refine Or.inr ?_
        change (M.miExpand h p newsize).1 ≠ 0 ∧
          V.Resizes h (M.miExpand h p newsize).2 p newsize (M.miExpand h p newsize).1
        rw [hq]
        exact ⟨hne, hresizes⟩
  | reallocAligned p newsize alignment =>
    exact hM.reallocAligned p newsize alignment (hheld hc)
  | reallocAlignedAt p newsize alignment offset =>
    exact hM.reallocAlignedAt p newsize alignment offset (hheld hc)
  | free p =>
    simp only [Mem.Call.op]
    split_ifs with hp
    · refine ⟨rfl, fun q => ?_⟩
      subst hp
      exact hM.freeNull q
    · exact hM.free p (hheld (hc.resolve_left hp))

end

/-! ## Runs -/

/-- The heap, and what the two sides know of their blocks. -/
structure Process (H : Type*) where
  heap : H
  ledger : Ledger Owner UInt8

/-- No block is held yet. -/
def Process.start {H : Type*} (h : H) : Process H where
  heap := h
  ledger _ := none

/-- What happens : a call of one side, or a read or a write of a byte of a block. -/
inductive Event where
  | rust (call : SpreadsMalloc.Call)
  | managed (call : Mem.Call)
  /-- `Mem.UsableSize`. -/
  | usableSize (p : Ptr)
  | store (side : Side) (p : Ptr) (i : ℕ) (b : UInt8)
  | load (side : Side) (p : Ptr) (i : ℕ)

/-- What an event shows. Beside a size or a byte stands what the ledger says of it. -/
inductive Shown where
  | returned (p : Ptr)
  /-- `held` is none for a null pointer. -/
  | usableSize (held : Option ℕ) (n : ℕ)
  | loaded (known : Option UInt8) (b : UInt8)

/-- The two sides on one heap. -/
def process {H : Type*} (M : MimallocApi H) (V : Memory H) (target : Target) :
    Machine (Process H) Event Shown where
  step w
    | .rust call =>
      let (q, h) := call.perform M.toMimalloc target w.heap
      ([.returned q], ⟨h, w.ledger.apply q call.op⟩)
    | .managed call =>
      let (q, h) := call.perform M w.heap
      ([.returned q], ⟨h, w.ledger.apply q (call.op target.arch.usizeBits)⟩)
    | .usableSize p =>
      ([.usableSize (if p = null then none else (w.ledger p).map Block.size)
        (spreadsMemUsableSize M w.heap p)], w)
    | .store _ p i b => ([], ⟨V.write w.heap (p + i) b, w.ledger.store p i b⟩)
    | .load _ p i => ([.loaded ((w.ledger p).bind fun b => b.known i) (V.byte w.heap (p + i))], w)

/-- The side that acts. -/
def Event.side : Event → Side
  | .rust _ => .rust
  | .managed _ | .usableSize _ => .managed
  | .store side _ _ _ | .load side _ _ => side

/-- Each side obeys its contract, and reads and writes its own blocks only. -/
def Event.Obeys {H : Type*} (target : Target) (w : Process H) : Event → Prop
  | .rust call => call.Obeys w.ledger
  | .managed call => call.Obeys target.arch.usizeBits w.ledger
  | .usableSize p => p = null ∨ ∃ b, w.ledger p = some b ∧ b.owner = .managed
  | .store side p i _ | .load side p i =>
    ∃ b, w.ledger p = some b ∧ b.owner.side = side ∧ i < b.size

/-- What is shown agrees with the ledger : a block has the size that was asked for, null has
none, and a byte is the one last written, if any was. -/
def Shown.Agrees : Shown → Prop
  | .returned _ => True
  | .usableSize (some size) n => size ≤ n
  | .usableSize none n => n = 0
  | .loaded known b => ∀ x, known = some x → b = x

/-- 32 bytes aligned to 32. -/
def thirtyTwoBytes : Layout :=
  ⟨32, 32, 5, rfl⟩

/-- Rust and managed code allocate, and managed code writes a byte to its block. -/
def bothAllocate : List Event :=
  [.rust (.allocZeroed thirtyTwoBytes), .managed (.malloc 8), .store .managed 4144 0 7]

/-- Managed code resizes its block, reads the byte, asks for the size, and frees the block. -/
def managedMoves : List Event :=
  [.managed (.reallocf 4144 24), .load .managed 4160 0, .usableSize 4160, .managed (.expand null 8),
    .managed (.free 4160)]

theorem obeys_bothAllocate :
    (process BlockHeap.mimalloc BlockHeap.memory SpreadsMalloc.linuxX64).Admissible
      (Event.Obeys SpreadsMalloc.linuxX64) bothAllocate (.start BlockHeap.start) :=
  ⟨Nat.succ_pos 31, trivial, ⟨_, rfl, rfl, Nat.succ_pos 7⟩, trivial⟩

theorem obeys_managedMoves :
    (process BlockHeap.mimalloc BlockHeap.memory SpreadsMalloc.linuxX64).Admissible
      (Event.Obeys SpreadsMalloc.linuxX64) managedMoves
      ((process BlockHeap.mimalloc BlockHeap.memory SpreadsMalloc.linuxX64).run bothAllocate
        (.start BlockHeap.start)).2 :=
  ⟨Or.inr ⟨_, rfl, rfl⟩, ⟨_, rfl, rfl, Nat.succ_pos 23⟩, Or.inr ⟨_, rfl, rfl⟩, Or.inl rfl,
    Or.inr ⟨_, rfl, rfl⟩, trivial⟩

section

variable {H : Type*} {M : MimallocApi H} {V : Memory H} {target : Target} {w : Process H}

/-- An event under the contract keeps the heap backing the ledger, and shows what agrees
with it. -/
theorem process_step (hM : M.KeepsBlocksAt V target.arch.usizeBits w.heap) (e : Event)
    (hw : Backs V.toView w.heap w.ledger) (he : e.Obeys target w) :
    Backs V.toView ((process M V target).step w e).2.heap
        ((process M V target).step w e).2.ledger ∧
      ∀ s ∈ ((process M V target).step w e).1, s.Agrees := by
  cases e with
  | rust call =>
    refine ⟨hw.apply (fun p hp => ?_) (call.meets target hM hw he), ?_⟩
    · obtain ⟨b, hb, -⟩ := SpreadsMalloc.Call.subject_side he hp
      exact ⟨b, hb⟩
    · exact List.forall_mem_singleton.mpr trivial
  | managed call =>
    refine ⟨hw.apply (fun p hp => ?_) (call.meets hM hw he), ?_⟩
    · obtain ⟨b, hb, -⟩ := Mem.Call.subject_side he hp
      exact ⟨b, hb⟩
    · exact List.forall_mem_singleton.mpr trivial
  | usableSize p =>
    refine ⟨hw, List.forall_mem_singleton.mpr ?_⟩
    by_cases hp : p = null
    · rw [if_pos hp, hp]
      exact hM.usableSizeNull
    · obtain ⟨b, hb, -⟩ := he.resolve_left hp
      obtain ⟨n, hle, hn, -⟩ := (hw.backedAt p).block b hb
      rw [if_neg hp, hb, spreadsMemUsableSize, hM.usableSize p n hn]
      exact hle
  | store side p i x =>
    obtain ⟨b, hb, -, hi⟩ := he
    exact ⟨hw.store hb hi (hM.write p i x), by simp [process]⟩
  | load side p i =>
    obtain ⟨b, hb, -, hi⟩ := he
    obtain ⟨n, -, -, hbytes⟩ := (hw.backedAt p).block b hb
    refine ⟨hw, List.forall_mem_singleton.mpr fun x hx => ?_⟩
    rw [hb] at hx
    exact hbytes i hi x hx

/-- In every run in which each side obeys its contract, mimalloc's blocks are exactly the
blocks that the two sides hold, each is large enough, no two overlap, and every byte that
is read is the one last written to it. -/
theorem process_backs (hM : M.KeepsBlocks V target.arch.usizeBits) {h : H}
    (hempty : ∀ p, V.usable h p = none) (events : List Event)
    (hobeys : (process M V target).Admissible (Event.Obeys target) events (.start h)) :
    Backs V.toView ((process M V target).run events (.start h)).2.heap
        ((process M V target).run events (.start h)).2.ledger ∧
      ∀ s ∈ ((process M V target).run events (.start h)).1, s.Agrees :=
  (process M V target).run_invariant_of_admissible (fun w => process_step (hM w.heap)) events _
    hobeys (backs_empty hempty)

end

theorem bothAllocate_backs :
    let events := bothAllocate ++ managedMoves
    Backs BlockHeap.memory.toView
        ((process BlockHeap.mimalloc BlockHeap.memory SpreadsMalloc.linuxX64).run events
          (.start BlockHeap.start)).2.heap
        ((process BlockHeap.mimalloc BlockHeap.memory SpreadsMalloc.linuxX64).run events
          (.start BlockHeap.start)).2.ledger ∧
      ∀ s ∈ ((process BlockHeap.mimalloc BlockHeap.memory SpreadsMalloc.linuxX64).run events
        (.start BlockHeap.start)).1, s.Agrees :=
  process_backs BlockHeap.keepsBlocks (fun _ => rfl) (bothAllocate ++ managedMoves)
    (Machine.admissible_append.mpr ⟨obeys_bothAllocate, obeys_managedMoves⟩)

section

variable {H : Type*} {M : MimallocApi H} {V : Memory H} {target : Target}

/-- A block after an event has the owner it had, or is one of the side that acts. -/
theorem process_owner {w : Process H} {e : Event} {p : Ptr} {b : Block Owner UInt8}
    (hp : ((process M V target).step w e).2.ledger p = some b) :
    (∃ b₀, w.ledger p = some b₀ ∧ b₀.owner = b.owner) ∨ b.owner.side = e.side := by
  cases e with
  | rust call =>
    rcases Ledger.apply_eq_some hp with hold | ⟨-, -, howner, -⟩
    · exact Or.inl ⟨b, hold, rfl⟩
    · exact Or.inr (SpreadsMalloc.Call.side_op howner)
  | managed call =>
    rcases Ledger.apply_eq_some hp with hold | ⟨-, -, howner, -⟩
    · exact Or.inl ⟨b, hold, rfl⟩
    · exact Or.inr (by rw [Mem.Call.owner_op howner]; rfl)
  | usableSize q => exact Or.inl ⟨b, hp, rfl⟩
  | load side q i => exact Or.inl ⟨b, hp, rfl⟩
  | store side q i x =>
    rcases update_eq_some hp with ⟨rfl, hb⟩ | ⟨-, hb⟩
    · obtain ⟨b', hb', rfl⟩ := Option.map_eq_some_iff.mp hb
      exact Or.inl ⟨b', hb', rfl⟩
    · exact Or.inl ⟨b, hb, rfl⟩

/-- A new block is one of the side that acts. -/
theorem process_side_of_new {w : Process H} {e : Event} {p : Ptr} {b : Block Owner UInt8}
    (hnone : w.ledger p = none) (hp : ((process M V target).step w e).2.ledger p = some b) :
    b.owner.side = e.side := by
  refine (process_owner hp).resolve_left ?_
  rintro ⟨b₀, hb₀, -⟩
  exact absurd (hnone.symm.trans hb₀) nofun

/-- An event of one side changes no block of the other. -/
theorem process_step_other {w : Process H} (hM : M.KeepsBlocksAt V target.arch.usizeBits w.heap)
    {e : Event} (hw : Backs V.toView w.heap w.ledger) (he : e.Obeys target w) {p : Ptr}
    {b : Block Owner UInt8} (hp : w.ledger p = some b) (hside : b.owner.side ≠ e.side) :
    ((process M V target).step w e).2.ledger p = some b ∧
      V.Same w.heap ((process M V target).step w e).2.heap p := by
  have hne : ∀ {q : Ptr}, (∃ b', w.ledger q = some b' ∧ b'.owner.side = e.side) → p ≠ q := by
    rintro q ⟨b', hb', hside'⟩ rfl
    obtain rfl := Option.some.inj (hp.symm.trans hb')
    exact hside hside'
  cases e with
  | rust call =>
    refine hw.apply_of_ne (call.meets target hM hw he) hp fun hsubject => ?_
    exact hne (SpreadsMalloc.Call.subject_side he hsubject) rfl
  | managed call =>
    refine hw.apply_of_ne (call.meets hM hw he) hp fun hsubject => ?_
    exact hne (Mem.Call.subject_side he hsubject) rfl
  | usableSize q => exact ⟨hp, rfl, fun _ _ _ _ => rfl⟩
  | store side q i x =>
    obtain ⟨b', hb', hside', hi⟩ := he
    exact hw.store_of_ne hb' hi (hM.write q i x) hp (hne ⟨b', hb', hside'⟩)
  | load side q i => exact ⟨hp, rfl, fun _ _ _ _ => rfl⟩

/-- An event leaves each block to the side that has it. -/
theorem process_step_side {w : Process H} (hM : M.KeepsBlocksAt V target.arch.usizeBits w.heap)
    {e : Event} (hw : Backs V.toView w.heap w.ledger) (he : e.Obeys target w) {p : Ptr}
    {b b' : Block Owner UInt8} (hp : w.ledger p = some b)
    (hp' : ((process M V target).step w e).2.ledger p = some b') :
    b'.owner.side = b.owner.side := by
  by_cases hside : b.owner.side = e.side
  · rcases process_owner hp' with ⟨b₀, hb₀, howner⟩ | hside'
    · obtain rfl := Option.some.inj (hp.symm.trans hb₀)
      rw [howner]
    · exact hside'.trans hside.symm
  · obtain rfl := Option.some.inj
      ((process_step_other hM hw he hp hside).1.symm.trans hp')
    rfl

/-- The blocks of all sides but one are in the same place in both states, with the same bytes. -/
def Process.Undisturbed (V : Memory H) (side : Side) (w w' : Process H) : Prop :=
  ∀ p b, w.ledger p = some b → b.owner.side ≠ side →
    w'.ledger p = some b ∧ V.Same w.heap w'.heap p

theorem Process.Undisturbed.refl (side : Side) (w : Process H) : w.Undisturbed V side w :=
  fun _ _ hp _ => ⟨hp, rfl, fun _ _ _ _ => rfl⟩

theorem Process.Undisturbed.trans {side : Side} {w w' w'' : Process H}
    (h : w.Undisturbed V side w') (h' : w'.Undisturbed V side w'') : w.Undisturbed V side w'' := by
  intro p b hp hside
  obtain ⟨hp', hsame⟩ := h p b hp hside
  obtain ⟨hp'', hsame'⟩ := h' p b hp' hside
  exact ⟨hp'', hsame.trans hsame'⟩

/-- Whatever one side does, it changes no block of the other : after any run, further
events of one side leave each block of the other where it is, with its size and all its
bytes. -/
theorem other_side_undisturbed (hM : M.KeepsBlocks V target.arch.usizeBits) {h : H}
    (hempty : ∀ p, V.usable h p = none) (events events' : List Event) {side : Side}
    (hobeys : (process M V target).Admissible (Event.Obeys target) events (.start h))
    (hobeys' : (process M V target).Admissible (Event.Obeys target) events'
      ((process M V target).run events (.start h)).2)
    (hside : ∀ e ∈ events', e.side = side) :
    let w := ((process M V target).run events (.start h)).2
    w.Undisturbed V side ((process M V target).run events' w).2 := by
  have hw := ((process M V target).run_invariant_of_admissible (fun w => process_step (hM w.heap))
    events _ hobeys (backs_empty hempty)).1
  have hstep : ∀ (w : Process H) (e : Event), Backs V.toView w.heap w.ledger →
      e.Obeys target w ∧ e.side = side →
      Backs V.toView ((process M V target).step w e).2.heap
          ((process M V target).step w e).2.ledger ∧
        w.Undisturbed V side ((process M V target).step w e).2 := by
    rintro w e hw ⟨he, rfl⟩
    exact ⟨(process_step (hM w.heap) e hw he).1,
      fun p b hp => process_step_other (hM w.heap) hw he hp⟩
  exact (process M V target).run_rel_of_admissible (Process.Undisturbed.refl side)
    Process.Undisturbed.trans hstep events' _ (hobeys'.and_forall hside) hw

end

/-- Rust's block is where it was, with its zeros, after managed code has moved its own. -/
theorem managedMoves_undisturbed :
    let w := ((process BlockHeap.mimalloc BlockHeap.memory SpreadsMalloc.linuxX64).run bothAllocate
      (.start BlockHeap.start)).2
    w.Undisturbed BlockHeap.memory .managed
      ((process BlockHeap.mimalloc BlockHeap.memory SpreadsMalloc.linuxX64).run managedMoves w).2 :=
  other_side_undisturbed BlockHeap.keepsBlocks (fun _ => rfl) bothAllocate managedMoves
    obeys_bothAllocate obeys_managedMoves (by simp [managedMoves, Event.side])

end SpreadsNative
