import SpreadsNative.Process
import SpreadsNative.Interop

/-!
# First-class heaps

mimalloc has a heap for each thread, and managed code can make more of them (`Mem.Heap*` of
`dotnet/src/Spreads.Native/Mem.cs`). A block is in one heap. `spreads_mem_heap_*` put a new
block in the heap they are given, all other calls in the default heap of the thread they are
made on. Only the thread that made a heap may allocate from it, as `mimalloc_wrapper.h` says.

`HeapApi` has these entries, as one thread calls them, and `KeepsHeaps` says what mimalloc
does with heaps : a deleted heap leaves its blocks to the thread, a destroyed heap takes them
with it. Threads do not end here, so each keeps its backing heap. `ArenaHeap` is a mimalloc
with heaps of any number of threads (`ArenaHeap.keepsHeaps`).
-/

open Blocks

namespace SpreadsNative

/-- mimalloc with first-class heaps, as one thread calls it. -/
structure HeapApi (H : Type*) extends MimallocApi H where
  /-- The entries `mi_heap_*` that allocate from a heap. Those that take none are the same. -/
  onHeap : (heap : Ptr) → MimallocApi H
  miHeapNew : H → Ptr × H
  miHeapDelete : H → (heap : Ptr) → H
  miHeapDestroy : H → (heap : Ptr) → H
  /-- Returns the default heap of before. -/
  miHeapSetDefault : H → (heap : Ptr) → Ptr × H
  miHeapGetDefault : H → Ptr
  miHeapGetBacking : H → Ptr
  miHeapContainsBlock : H → (heap p : Ptr) → Bool

/-! ## The calls -/

section Wrappers

variable {H : Type*} (M : HeapApi H) (h : H) (heap : Ptr)

/-- `spreads_mem_heap_malloc`. -/
def spreadsMemHeapMalloc (size : ℕ) : Ptr × H :=
  (M.onHeap heap).miMalloc h size

/-- `spreads_mem_heap_zalloc`. -/
def spreadsMemHeapZalloc (size : ℕ) : Ptr × H :=
  (M.onHeap heap).miZalloc h size

/-- `spreads_mem_heap_calloc`. -/
def spreadsMemHeapCalloc (count size : ℕ) : Ptr × H :=
  (M.onHeap heap).miCalloc h count size

/-- `spreads_mem_heap_mallocn`. -/
def spreadsMemHeapMallocn (count size : ℕ) : Ptr × H :=
  (M.onHeap heap).miMallocn h count size

/-- `spreads_mem_heap_malloc_small`. -/
def spreadsMemHeapMallocSmall (size : ℕ) : Ptr × H :=
  (M.onHeap heap).miMallocSmall h size

/-- `spreads_mem_heap_realloc`. -/
def spreadsMemHeapRealloc (p : Ptr) (newsize : ℕ) : Ptr × H :=
  (M.onHeap heap).miRealloc h p newsize

/-- `spreads_mem_heap_reallocn`. -/
def spreadsMemHeapReallocn (p : Ptr) (count size : ℕ) : Ptr × H :=
  (M.onHeap heap).miReallocn h p count size

/-- `spreads_mem_heap_reallocf`. -/
def spreadsMemHeapReallocf (p : Ptr) (newsize : ℕ) : Ptr × H :=
  (M.onHeap heap).miReallocf h p newsize

/-- `spreads_mem_heap_malloc_aligned`. -/
def spreadsMemHeapMallocAligned (size alignment : ℕ) : Ptr × H :=
  (M.onHeap heap).miMallocAligned h size alignment

/-- `spreads_mem_heap_malloc_aligned_at`. -/
def spreadsMemHeapMallocAlignedAt (size alignment offset : ℕ) : Ptr × H :=
  (M.onHeap heap).miMallocAlignedAt h size alignment offset

/-- `spreads_mem_heap_zalloc_aligned`. -/
def spreadsMemHeapZallocAligned (size alignment : ℕ) : Ptr × H :=
  (M.onHeap heap).miZallocAligned h size alignment

/-- `spreads_mem_heap_zalloc_aligned_at`. -/
def spreadsMemHeapZallocAlignedAt (size alignment offset : ℕ) : Ptr × H :=
  (M.onHeap heap).miZallocAlignedAt h size alignment offset

/-- `spreads_mem_heap_calloc_aligned`. -/
def spreadsMemHeapCallocAligned (count size alignment : ℕ) : Ptr × H :=
  (M.onHeap heap).miCallocAligned h count size alignment

/-- `spreads_mem_heap_calloc_aligned_at`. -/
def spreadsMemHeapCallocAlignedAt (count size alignment offset : ℕ) : Ptr × H :=
  (M.onHeap heap).miCallocAlignedAt h count size alignment offset

/-- `spreads_mem_heap_realloc_aligned`. -/
def spreadsMemHeapReallocAligned (p : Ptr) (newsize alignment : ℕ) : Ptr × H :=
  (M.onHeap heap).miReallocAligned h p newsize alignment

/-- `spreads_mem_heap_realloc_aligned_at`. -/
def spreadsMemHeapReallocAlignedAt (p : Ptr) (newsize alignment offset : ℕ) : Ptr × H :=
  (M.onHeap heap).miReallocAlignedAt h p newsize alignment offset

/-- `spreads_mem_heap_new`. -/
def spreadsMemHeapNew : Ptr × H :=
  M.miHeapNew h

/-- `spreads_mem_heap_delete`. -/
def spreadsMemHeapDelete : H :=
  M.miHeapDelete h heap

/-- `spreads_mem_heap_destroy`. -/
def spreadsMemHeapDestroy : H :=
  M.miHeapDestroy h heap

/-- `spreads_mem_heap_set_default`. -/
def spreadsMemHeapSetDefault : Ptr × H :=
  M.miHeapSetDefault h heap

/-- `spreads_mem_heap_get_default`. -/
def spreadsMemHeapGetDefault : Ptr :=
  M.miHeapGetDefault h

/-- `spreads_mem_heap_get_backing`. -/
def spreadsMemHeapGetBacking : Ptr :=
  M.miHeapGetBacking h

/-- `spreads_mem_heap_contains_block`. -/
def spreadsMemHeapContainsBlock (p : Ptr) : Bool :=
  M.miHeapContainsBlock h heap p

/-- `Mem.HeapContainsBlock`. -/
def Mem.heapContainsBlock (p : Ptr) (upper : BitVec 24) : Bool :=
  readBool (spreadsMemHeapContainsBlock M h heap p) upper

end Wrappers

/-- A call of `Mem` that allocates from a heap it is given. -/
inductive Mem.HeapCall where
  | heapMalloc (size : ℕ)
  | heapZalloc (size : ℕ)
  | heapCalloc (count size : ℕ)
  | heapMallocn (count size : ℕ)
  | heapMallocSmall (size : ℕ)
  | heapRealloc (p : Ptr) (newsize : ℕ)
  | heapReallocn (p : Ptr) (count size : ℕ)
  | heapReallocf (p : Ptr) (newsize : ℕ)
  | heapMallocAligned (size alignment : ℕ)
  | heapMallocAlignedAt (size alignment offset : ℕ)
  | heapZallocAligned (size alignment : ℕ)
  | heapZallocAlignedAt (size alignment offset : ℕ)
  | heapCallocAligned (count size alignment : ℕ)
  | heapCallocAlignedAt (count size alignment offset : ℕ)
  | heapReallocAligned (p : Ptr) (newsize alignment : ℕ)
  | heapReallocAlignedAt (p : Ptr) (newsize alignment offset : ℕ)

/-- The entry point of the extern. -/
def Mem.HeapCall.perform {H : Type*} (M : HeapApi H) (h : H) (heap : Ptr) :
    Mem.HeapCall → Ptr × H
  | .heapMalloc size => spreadsMemHeapMalloc M h heap size
  | .heapZalloc size => spreadsMemHeapZalloc M h heap size
  | .heapCalloc count size => spreadsMemHeapCalloc M h heap count size
  | .heapMallocn count size => spreadsMemHeapMallocn M h heap count size
  | .heapMallocSmall size => spreadsMemHeapMallocSmall M h heap size
  | .heapRealloc p newsize => spreadsMemHeapRealloc M h heap p newsize
  | .heapReallocn p count size => spreadsMemHeapReallocn M h heap p count size
  | .heapReallocf p newsize => spreadsMemHeapReallocf M h heap p newsize
  | .heapMallocAligned size alignment => spreadsMemHeapMallocAligned M h heap size alignment
  | .heapMallocAlignedAt size alignment offset =>
    spreadsMemHeapMallocAlignedAt M h heap size alignment offset
  | .heapZallocAligned size alignment => spreadsMemHeapZallocAligned M h heap size alignment
  | .heapZallocAlignedAt size alignment offset =>
    spreadsMemHeapZallocAlignedAt M h heap size alignment offset
  | .heapCallocAligned count size alignment =>
    spreadsMemHeapCallocAligned M h heap count size alignment
  | .heapCallocAlignedAt count size alignment offset =>
    spreadsMemHeapCallocAlignedAt M h heap count size alignment offset
  | .heapReallocAligned p newsize alignment =>
    spreadsMemHeapReallocAligned M h heap p newsize alignment
  | .heapReallocAlignedAt p newsize alignment offset =>
    spreadsMemHeapReallocAlignedAt M h heap p newsize alignment offset

/-- The same call with no heap given. -/
def Mem.HeapCall.call : Mem.HeapCall → Mem.Call
  | .heapMalloc size => .malloc size
  | .heapZalloc size => .zalloc size
  | .heapCalloc count size => .calloc count size
  | .heapMallocn count size => .mallocn count size
  | .heapMallocSmall size => .mallocSmall size
  | .heapRealloc p newsize => .realloc p newsize
  | .heapReallocn p count size => .reallocn p count size
  | .heapReallocf p newsize => .reallocf p newsize
  | .heapMallocAligned size alignment => .mallocAligned size alignment
  | .heapMallocAlignedAt size alignment offset => .mallocAlignedAt size alignment offset
  | .heapZallocAligned size alignment => .zallocAligned size alignment
  | .heapZallocAlignedAt size alignment offset => .zallocAlignedAt size alignment offset
  | .heapCallocAligned count size alignment => .callocAligned count size alignment
  | .heapCallocAlignedAt count size alignment offset => .callocAlignedAt count size alignment offset
  | .heapReallocAligned p newsize alignment => .reallocAligned p newsize alignment
  | .heapReallocAlignedAt p newsize alignment offset => .reallocAlignedAt p newsize alignment offset

theorem Mem.HeapCall.perform_eq {H : Type*} (M : HeapApi H) (h : H) (heap : Ptr)
    (c : Mem.HeapCall) : c.perform M h heap = c.call.perform (M.onHeap heap) h := by
  cases c <;> rfl

/-! ## What mimalloc does with heaps -/

/-- The memory of a mimalloc with heaps, called by the threads `θ`. -/
structure HeapMemory (H θ : Type*) extends Memory H where
  /-- The heap that the block at an address is in. -/
  home : H → Ptr → Ptr
  /-- The thread that may allocate from a heap, while there is one. -/
  thread : H → Ptr → Option θ
  /-- The heap that a thread allocates from if it is given none. -/
  default : H → θ → Ptr
  /-- The heap of a thread that is always there, as the thread does not end. -/
  backing : θ → Ptr
  home_ne_none : ∀ h p, usable h p ≠ none → thread h (home h p) ≠ none
  default_eq_some : ∀ h k, thread h (default h k) = some k
  backing_eq_some : ∀ h k, thread h (backing k) = some k

section

variable {H θ : Type*} (V : HeapMemory H θ) (h h' : H)

/-- New blocks are in `heap`, all others in the heaps they were in, and the heaps are as
they were. -/
structure HeapMemory.Homed (heap : Ptr) : Prop where
  home : ∀ p, V.usable h' p ≠ none →
    V.home h' p = if V.usable h p = none then heap else V.home h p
  thread : V.thread h' = V.thread h
  default : V.default h' = V.default h

/-- A heap of thread `k` is made, or `heap` is null. -/
structure HeapMemory.Makes (k : θ) (heap : Ptr) : Prop where
  same : ∀ p, V.Same h h' p
  home : ∀ p, V.usable h p ≠ none → V.home h' p = V.home h p
  fresh : heap ≠ null → V.thread h heap = none
  thread : V.thread h' =
    if heap = null then V.thread h else Function.update (V.thread h) heap (some k)
  default : V.default h' = V.default h

/-- A heap is gone. A thread that had it as default goes back to its backing heap. -/
structure HeapMemory.Drops (heap : Ptr) : Prop where
  thread : V.thread h' = Function.update (V.thread h) heap none
  default : ∀ k, V.default h' k = if V.default h k = heap then V.backing k else V.default h k

/-- A heap of thread `k` is gone, and its blocks are in another one that the thread has. -/
structure HeapMemory.Deletes (k : θ) (heap : Ptr) : Prop extends V.Drops h h' heap where
  same : ∀ p, V.Same h h' p
  home : ∃ heir, (heir = V.backing k ∨ heir = V.default h' k) ∧ ∀ p, V.usable h p ≠ none →
    V.home h' p = if V.home h p = heap then heir else V.home h p

/-- A heap is gone, with the blocks in it. -/
structure HeapMemory.Destroys (heap : Ptr) : Prop extends V.Drops h h' heap where
  blocks : V.ReleasesAll h h' fun p => V.home h p = heap
  home : ∀ p, V.usable h' p ≠ none → V.home h' p = V.home h p

/-- Thread `k` has another default heap. -/
structure HeapMemory.SetsDefault [DecidableEq θ] (k : θ) (heap : Ptr) : Prop where
  same : ∀ p, V.Same h h' p
  home : V.home h' = V.home h
  thread : V.thread h' = V.thread h
  default : V.default h' = Function.update (V.default h) k heap

end

/-- The pointer that a call is given is that of a block, or null where that is allowed, and a
small block is small. -/
def Mem.Call.Given {H : Type*} (V : View H UInt8) (usizeBits : ℕ) (h : H) : Mem.Call → Prop
  | .realloc p _ | .reallocn p _ _ | .reallocf p _ | .expand p _ | .free p =>
    p = null ∨ V.usable h p ≠ none
  | .reallocAligned p _ _ | .reallocAlignedAt p _ _ _ => V.usable h p ≠ none
  | .mallocSmall size | .zallocSmall size => size ≤ smallSizeMax usizeBits
  | .calloc _ _ | .malloc _ | .zalloc _ | .mallocn _ _ | .mallocAligned _ _ | .zallocAligned _ _
  | .mallocAlignedAt _ _ _ | .zallocAlignedAt _ _ _ | .callocAligned _ _ _
  | .callocAlignedAt _ _ _ _ => True

/-- The pointer that a call of `SpreadsMalloc` is given is that of a block. -/
def SpreadsMalloc.Call.Given {H : Type*} (V : View H UInt8) (h : H) : SpreadsMalloc.Call → Prop
  | .alloc _ | .allocZeroed _ => True
  | .dealloc ptr _ | .realloc ptr _ _ => V.usable h ptr ≠ none

/-- Calls are given pointers of blocks, and reads and writes stay in them. -/
def Event.Given {H : Type*} (V : View H UInt8) (target : Target) (h : H) : Event → Prop
  | .rust call => call.Given V h
  | .managed call => call.Given V target.arch.usizeBits h
  | .usableSize p => p = null ∨ V.usable h p ≠ none
  | .store _ p i _ | .load _ p i => ∃ n, V.usable h p = some n ∧ i < n

/-- What mimalloc does with blocks and heaps, as long as a heap is used by its thread and no
thread ends. -/
structure KeepsHeaps {H θ : Type*} [DecidableEq θ] (M : θ → HeapApi H) (V : HeapMemory H θ)
    (usizeBits : ℕ) : Prop where
  blocks : ∀ k, (M k).KeepsBlocks V.toMemory usizeBits
  homed : ∀ k h (c : Mem.Call), c.Given V.toView usizeBits h →
    V.Homed h (c.perform (M k).toMimallocApi h).2 (V.default h k)
  onHeapBlocks : ∀ k h heap, V.thread h heap = some k →
    ((M k).onHeap heap).KeepsBlocksAt V.toMemory usizeBits h
  onHeapHomed : ∀ k h heap, V.thread h heap = some k →
    ∀ c : Mem.Call, c.Given V.toView usizeBits h →
    V.Homed h (c.perform ((M k).onHeap heap) h).2 heap
  write : ∀ h p b heap, V.Homed h (V.write h p b) heap
  heapNew : ∀ k h, V.Makes h ((M k).miHeapNew h).2 k ((M k).miHeapNew h).1
  heapDelete : ∀ k h heap, V.thread h heap = some k → heap ≠ V.backing k →
    V.Deletes h ((M k).miHeapDelete h heap) k heap
  heapDestroy : ∀ k h heap, V.thread h heap = some k → heap ≠ V.backing k →
    V.Destroys h ((M k).miHeapDestroy h heap) heap
  heapSetDefault : ∀ k h heap, V.thread h heap = some k →
    V.SetsDefault h ((M k).miHeapSetDefault h heap).2 k heap
  heapSetDefaultOld : ∀ k h heap, V.thread h heap = some k →
    ((M k).miHeapSetDefault h heap).1 = V.default h k
  heapGetDefault : ∀ k h, (M k).miHeapGetDefault h = V.default h k
  heapGetBacking : ∀ k h, (M k).miHeapGetBacking h = V.backing k
  heapContainsBlock : ∀ k h heap p, V.thread h heap = some k → V.usable h p ≠ none →
    (M k).miHeapContainsBlock h heap p = decide (V.home h p = heap)

/-! ## A mimalloc with heaps -/

/-- Heaps of any number of threads. The backing heap of thread `k` is heap `2 * k + 1`, and
the heaps that are made have the even numbers from 2 on. -/
structure ArenaHeap where
  blocks : BlockHeap
  home : ℕ → ℕ
  thread : ℕ → Option ℕ
  default : ℕ → ℕ
  made : ℕ
  thread_backing : ∀ k, thread (2 * k + 1) = some k
  thread_default : ∀ k, thread (default k) = some k
  thread_home : ∀ p, blocks.usable p ≠ none → thread (home p) ≠ none
  lt_made : ∀ i, thread (2 * i + 2) ≠ none → i < made

namespace ArenaHeap

/-- The backing heaps, with no blocks. -/
def start : ArenaHeap where
  blocks := BlockHeap.start
  home _ := 1
  thread heap := if heap % 2 = 1 then some (heap / 2) else none
  default k := 2 * k + 1
  made := 0
  thread_backing k := by
    rw [if_pos (by omega), show (2 * k + 1) / 2 = k by omega]
  thread_default k := by
    rw [if_pos (by omega), show (2 * k + 1) / 2 = k by omega]
  thread_home _ h := absurd rfl h
  lt_made i h := by
    rw [if_neg (by omega)] at h
    exact absurd rfl h

/-- The heaps and their memory. -/
def memory : HeapMemory ArenaHeap ℕ where
  toView := BlockHeap.memory.toView.comap blocks
  write h p b := { h with blocks := BlockHeap.memory.write h.blocks p b }
  home := home
  thread := thread
  default := default
  backing k := 2 * k + 1
  home_ne_none := thread_home
  default_eq_some := thread_default
  backing_eq_some := thread_backing

/-- A heap of thread `k`, or its backing heap if this is none. -/
def orBacking (h : ArenaHeap) (k heap : ℕ) : ℕ :=
  if h.thread heap = some k then heap else 2 * k + 1

theorem thread_orBacking (h : ArenaHeap) (k heap : ℕ) : h.thread (h.orBacking k heap) = some k := by
  unfold orBacking
  split_ifs with hthread
  · exact hthread
  · exact h.thread_backing k

/-- The blocks are now `b`, with new blocks in `heap` of thread `k`. -/
def put (h : ArenaHeap) (k heap : ℕ) (b : BlockHeap) : ArenaHeap :=
  { h with
    blocks := b
    home := fun p => if h.blocks.usable p = none then h.orBacking k heap else h.home p
    thread_home := fun p _ => by
      split_ifs with hnone
      · rw [thread_orBacking]
        exact Option.some_ne_none k
      · exact h.thread_home p hnone }

/-- What a call on the blocks is in a heap. -/
def lift (h : ArenaHeap) (k heap : ℕ) (r : ℕ × BlockHeap) : ℕ × ArenaHeap :=
  (r.1, h.put k heap r.2)

/-- The entries that allocate from a heap of thread `k`. -/
def allocating (k : ℕ) (heap : ArenaHeap → ℕ) : MimallocApi ArenaHeap where
  miMalloc h size := h.lift k (heap h) (BlockHeap.mimalloc.miMalloc h.blocks size)
  miZalloc h size := h.lift k (heap h) (BlockHeap.mimalloc.miZalloc h.blocks size)
  miRealloc h p newsize := h.lift k (heap h) (BlockHeap.mimalloc.miRealloc h.blocks p newsize)
  miMallocAligned h size alignment :=
    h.lift k (heap h) (BlockHeap.mimalloc.miMallocAligned h.blocks size alignment)
  miZallocAligned h size alignment :=
    h.lift k (heap h) (BlockHeap.mimalloc.miZallocAligned h.blocks size alignment)
  miReallocAligned h p newsize alignment :=
    h.lift k (heap h) (BlockHeap.mimalloc.miReallocAligned h.blocks p newsize alignment)
  miFree h p := h.put k (heap h) (BlockHeap.mimalloc.miFree h.blocks p)
  miCalloc h count size := h.lift k (heap h) (BlockHeap.mimalloc.miCalloc h.blocks count size)
  miMallocn h count size := h.lift k (heap h) (BlockHeap.mimalloc.miMallocn h.blocks count size)
  miReallocn h p count size :=
    h.lift k (heap h) (BlockHeap.mimalloc.miReallocn h.blocks p count size)
  miReallocf h p newsize := h.lift k (heap h) (BlockHeap.mimalloc.miReallocf h.blocks p newsize)
  miExpand h p newsize := h.lift k (heap h) (BlockHeap.mimalloc.miExpand h.blocks p newsize)
  miMallocSmall h size := h.lift k (heap h) (BlockHeap.mimalloc.miMallocSmall h.blocks size)
  miZallocSmall h size := h.lift k (heap h) (BlockHeap.mimalloc.miZallocSmall h.blocks size)
  miMallocAlignedAt h size alignment offset :=
    h.lift k (heap h) (BlockHeap.mimalloc.miMallocAlignedAt h.blocks size alignment offset)
  miZallocAlignedAt h size alignment offset :=
    h.lift k (heap h) (BlockHeap.mimalloc.miZallocAlignedAt h.blocks size alignment offset)
  miCallocAligned h count size alignment :=
    h.lift k (heap h) (BlockHeap.mimalloc.miCallocAligned h.blocks count size alignment)
  miCallocAlignedAt h count size alignment offset :=
    h.lift k (heap h) (BlockHeap.mimalloc.miCallocAlignedAt h.blocks count size alignment offset)
  miReallocAlignedAt h p newsize alignment offset :=
    h.lift k (heap h) (BlockHeap.mimalloc.miReallocAlignedAt h.blocks p newsize alignment offset)
  miUsableSize h p := BlockHeap.mimalloc.miUsableSize h.blocks p

/-- A new heap of thread `k`. -/
def miHeapNew (k : ℕ) (h : ArenaHeap) : ℕ × ArenaHeap :=
  (2 * h.made + 2,
    { h with
      thread := Function.update h.thread (2 * h.made + 2) (some k)
      made := h.made + 1
      thread_backing := fun j => by
        rw [Function.update_of_ne (by omega), h.thread_backing j]
      thread_default := fun j => by
        rw [Function.update_of_ne, h.thread_default j]
        intro heq
        have := h.lt_made h.made (by rw [← heq, h.thread_default j]; exact Option.some_ne_none j)
        omega
      thread_home := fun p hp => by
        by_cases heq : h.home p = 2 * h.made + 2
        · rw [heq, Function.update_self]
          exact Option.some_ne_none k
        · rw [Function.update_of_ne heq]
          exact h.thread_home p hp
      lt_made := fun i hi => by
        by_cases heq : i = h.made
        · omega
        · rw [Function.update_of_ne (by omega)] at hi
          have := h.lt_made i hi
          omega })

/-- No heap of this number, and the blocks `b`, which are not in it. -/
def forget (h : ArenaHeap) (heap : ℕ) (heven : heap % 2 = 0) (b : BlockHeap) (home : ℕ → ℕ)
    (hhome : ∀ p, b.usable p ≠ none → home p ≠ heap ∧ h.thread (home p) ≠ none) : ArenaHeap where
  blocks := b
  home := home
  thread := Function.update h.thread heap none
  default k := if h.default k = heap then 2 * k + 1 else h.default k
  made := h.made
  thread_backing k := by
    rw [Function.update_of_ne (by omega), h.thread_backing k]
  thread_default k := by
    split_ifs with heq
    · rw [Function.update_of_ne (by omega), h.thread_backing k]
    · rw [Function.update_of_ne heq, h.thread_default k]
  thread_home p hp := by
    rw [Function.update_of_ne (hhome p hp).1]
    exact (hhome p hp).2
  lt_made i hi := by
    by_cases heq : 2 * i + 2 = heap
    · rw [heq, Function.update_self] at hi
      exact absurd rfl hi
    · rw [Function.update_of_ne heq] at hi
      exact h.lt_made i hi

/-- A deleted heap leaves its blocks to the backing heap of its thread. -/
def miHeapDelete (k : ℕ) (h : ArenaHeap) (heap : ℕ) : ArenaHeap :=
  if heven : heap % 2 = 0 then
    h.forget heap heven h.blocks (fun p => if h.home p = heap then 2 * k + 1 else h.home p)
      fun p hp => by
        split_ifs with heq
        · refine ⟨by omega, ?_⟩
          rw [h.thread_backing k]
          exact Option.some_ne_none k
        · exact ⟨heq, h.thread_home p hp⟩
  else h

/-- The blocks that are not in a heap. -/
def outside (h : ArenaHeap) (heap : ℕ) : BlockHeap where
  next := h.blocks.next
  usable p := if h.home p = heap then none else h.blocks.usable p
  byte := h.blocks.byte
  pos := h.blocks.pos
  zero_eq := by rw [h.blocks.zero_eq, ite_self]
  below p n hp := h.blocks.below p n (Option.ite_none_left_eq_some.mp hp).2
  separate := h.blocks.separate.sub fun _ _ hp => (Option.ite_none_left_eq_some.mp hp).2

/-- A destroyed heap takes its blocks with it. -/
def miHeapDestroy (h : ArenaHeap) (heap : ℕ) : ArenaHeap :=
  if heven : heap % 2 = 0 then
    h.forget heap heven (h.outside heap) h.home fun p hp => by
      obtain ⟨n, hn⟩ := Option.ne_none_iff_exists'.mp hp
      obtain ⟨hhome, hn⟩ := Option.ite_none_left_eq_some.mp hn
      exact ⟨hhome, h.thread_home p (by rw [hn]; exact Option.some_ne_none n)⟩
  else h

/-- Another default heap of thread `k`. -/
def miHeapSetDefault (k : ℕ) (h : ArenaHeap) (heap : ℕ) : ℕ × ArenaHeap :=
  (h.default k,
    { h with
      default := Function.update h.default k (h.orBacking k heap)
      thread_default := fun j => by
        by_cases hj : j = k
        · rw [hj, Function.update_self, thread_orBacking]
        · rw [Function.update_of_ne hj, h.thread_default j] })

/-- A mimalloc with these heaps, as thread `k` calls it. -/
def mimalloc (k : ℕ) : HeapApi ArenaHeap where
  toMimallocApi := allocating k fun h => h.default k
  onHeap heap := allocating k fun _ => heap
  miHeapNew := miHeapNew k
  miHeapDelete := miHeapDelete k
  miHeapDestroy := miHeapDestroy
  miHeapSetDefault := miHeapSetDefault k
  miHeapGetDefault h := h.default k
  miHeapGetBacking _ := 2 * k + 1
  miHeapContainsBlock h heap p := h.blocks.usable p ≠ none ∧ h.home p = heap

theorem homed_put {h : ArenaHeap} {k heap : ℕ} (hthread : h.thread heap = some k)
    (b : BlockHeap) : memory.Homed h (h.put k heap b) heap where
  home p _ := by
    change (if h.blocks.usable p = none then h.orBacking k heap else h.home p) = _
    rw [orBacking, if_pos hthread]
    rfl
  thread := rfl
  default := rfl

/-- What a call does to the blocks, it does to them in a heap. -/
theorem keepsBlocksAt_allocating (k : ℕ) (heap : ArenaHeap → ℕ) (h : ArenaHeap) :
    (allocating k heap).KeepsBlocksAt memory.toMemory 64 h :=
  have hb := BlockHeap.keepsBlocks h.blocks
  { malloc := fun size => (hb.malloc size).comap (f := blocks)
    zalloc := fun size => (hb.zalloc size).comap (f := blocks)
    mallocAligned := fun size alignment => (hb.mallocAligned size alignment).comap (f := blocks)
    zallocAligned := fun size alignment => (hb.zallocAligned size alignment).comap (f := blocks)
    mallocAlignedAt := fun size alignment offset =>
      (hb.mallocAlignedAt size alignment offset).comap (f := blocks)
    zallocAlignedAt := fun size alignment offset =>
      (hb.zallocAlignedAt size alignment offset).comap (f := blocks)
    mallocSmall := fun size hsmall => (hb.mallocSmall size hsmall).comap (f := blocks)
    zallocSmall := fun size hsmall => (hb.zallocSmall size hsmall).comap (f := blocks)
    calloc := fun count size hlt => (hb.calloc count size hlt).comap (f := blocks)
    callocOverflow := hb.callocOverflow
    callocAligned := fun count size alignment hlt =>
      (hb.callocAligned count size alignment hlt).comap (f := blocks)
    callocAlignedOverflow := hb.callocAlignedOverflow
    callocAlignedAt := fun count size alignment offset hlt =>
      (hb.callocAlignedAt count size alignment offset hlt).comap (f := blocks)
    callocAlignedAtOverflow := hb.callocAlignedAtOverflow
    mallocn := fun count size hlt => congrArg (h.lift k (heap h)) (hb.mallocn count size hlt)
    mallocnOverflow := hb.mallocnOverflow
    realloc := fun p newsize hp => (hb.realloc p newsize hp).comap (f := blocks)
    reallocNull := fun newsize => congrArg (h.lift k (heap h)) (hb.reallocNull newsize)
    reallocAligned := fun p newsize alignment hp =>
      (hb.reallocAligned p newsize alignment hp).comap (f := blocks)
    reallocAlignedAt := fun p newsize alignment offset hp =>
      (hb.reallocAlignedAt p newsize alignment offset hp).comap (f := blocks)
    reallocn := fun p count size hlt => congrArg (h.lift k (heap h)) (hb.reallocn p count size hlt)
    reallocnOverflow := hb.reallocnOverflow
    reallocf := fun p newsize hp => (hb.reallocf p newsize hp).comap (f := blocks)
    reallocfNull := fun newsize => congrArg (h.lift k (heap h)) (hb.reallocfNull newsize)
    expand := fun p newsize hp =>
      (hb.expand p newsize hp).imp id fun ⟨hq, hne, hresizes⟩ =>
        ⟨hq, hne, hresizes.comap (f := blocks)⟩
    expandNull := hb.expandNull
    free := fun p hp => (hb.free p hp).comap (f := blocks)
    freeNull := hb.freeNull
    usableSize := hb.usableSize
    usableSizeNull := hb.usableSizeNull
    write := fun p i b =>
      have hstores := hb.write p i b
      ⟨hstores.usable, hstores.written, hstores.others⟩ }

theorem drops_forget {h : ArenaHeap} {heap : ℕ} (heven : heap % 2 = 0) {b : BlockHeap}
    {home : ℕ → ℕ}
    (hhome : ∀ p, b.usable p ≠ none → home p ≠ heap ∧ h.thread (home p) ≠ none) :
    memory.Drops h (h.forget heap heven b home hhome) heap where
  thread := rfl
  default _ := rfl

/-- A heap of a thread that is not its backing heap was made. -/
theorem even_of_thread {h : ArenaHeap} {k heap : ℕ} (hthread : h.thread heap = some k)
    (hbacking : heap ≠ 2 * k + 1) : heap % 2 = 0 := by
  by_contra hodd
  have hheap : heap = 2 * (heap / 2) + 1 := by omega
  have hother := h.thread_backing (heap / 2)
  rw [← hheap, hthread] at hother
  have := Option.some.inj hother
  omega

/-- The heaps do with their blocks what mimalloc does. -/
theorem keepsHeaps : KeepsHeaps mimalloc memory 64 where
  blocks k h := keepsBlocksAt_allocating k (fun h => h.default k) h
  homed k h c _ := by
    cases c <;> exact homed_put (h.thread_default k) _
  onHeapBlocks k h heap _ := keepsBlocksAt_allocating k (fun _ => heap) h
  onHeapHomed k h heap hthread c _ := by
    cases c <;> exact homed_put hthread _
  write h p b heap :=
    { home := fun _ hp => (if_neg hp).symm
      thread := rfl
      default := rfl }
  heapNew k h := by
    have hnew : (mimalloc k).miHeapNew h = miHeapNew k h := rfl
    have hne : (miHeapNew k h).1 ≠ null := Nat.succ_ne_zero _
    rw [hnew]
    refine ⟨fun _ => ⟨rfl, fun _ _ _ _ => rfl⟩, fun _ _ => rfl, fun _ => ?_, ?_, rfl⟩
    · by_contra hthread
      exact Nat.lt_irrefl _ (h.lt_made h.made hthread)
    · rw [if_neg hne]
      rfl
  heapDelete k h heap hthread hbacking := by
    have heven : heap % 2 = 0 := even_of_thread hthread hbacking
    have hdelete : (mimalloc k).miHeapDelete h heap = miHeapDelete k h heap := rfl
    rw [hdelete, miHeapDelete, dif_pos heven]
    exact ⟨drops_forget heven _, fun _ => ⟨rfl, fun _ _ _ _ => rfl⟩, 2 * k + 1, Or.inl rfl,
      fun _ _ => rfl⟩
  heapDestroy k h heap hthread hbacking := by
    have heven : heap % 2 = 0 := even_of_thread hthread hbacking
    have hdestroy : (mimalloc k).miHeapDestroy h heap = h.miHeapDestroy heap := rfl
    rw [hdestroy, miHeapDestroy, dif_pos heven]
    exact ⟨drops_forget heven _,
      ⟨fun _ hp => if_pos hp, fun _ hp => ⟨if_neg hp, fun _ _ _ _ => rfl⟩⟩, fun _ _ => rfl⟩
  heapSetDefault k h heap hthread := by
    refine ⟨fun _ => ⟨rfl, fun _ _ _ _ => rfl⟩, rfl, rfl, ?_⟩
    change Function.update h.default k (h.orBacking k heap) = Function.update h.default k heap
    have hheap : h.thread heap = some k := hthread
    rw [orBacking, if_pos hheap]
  heapSetDefaultOld _ _ _ _ := rfl
  heapGetDefault _ _ := rfl
  heapGetBacking _ _ := rfl
  heapContainsBlock _ h heap p _ hp := decide_eq_decide.mpr (and_iff_right hp)

/-- The heaps align their blocks as mimalloc does. -/
theorem guarantees_mimalloc (k : ℕ) : (mimalloc k).toMimalloc.Guarantees 16 :=
  have hb := BlockHeap.guarantees_blockHeap
  { malloc := fun h => hb.malloc h.blocks
    zalloc := fun h => hb.zalloc h.blocks
    realloc := fun h => hb.realloc h.blocks
    mallocAligned := fun h => hb.mallocAligned h.blocks
    zallocAligned := fun h => hb.zallocAligned h.blocks
    reallocAligned := fun h => hb.reallocAligned h.blocks }

end ArenaHeap

end SpreadsNative
