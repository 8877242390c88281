import SpreadsNative.Machine
import Mathlib.Data.Nat.Log
import Mathlib.Algebra.Group.Nat.Even

/-!
# The global allocator

`SpreadsMalloc` of `rs/src/mem_allocation.rs`. It calls an unaligned entry of mimalloc
if the alignment is at most `MIN_ALIGN` and at most the size, and an aligned one
otherwise. `realloc` makes that test on the old layout, although the new block has the
new size.

mimalloc is not in the tree. `Mimalloc` is its interface on a heap, and `Guarantees` says
what it promises of addresses. An address is a number, and `null` is zero.

`allocator` is the allocator with the client's view of it, the layout of each live block.
`returned_aligned` : in every run that obeys the `GlobalAlloc` contract every block is
aligned to its layout, if no `realloc` shrinks a block that came from an unaligned entry
below its alignment (`Call.KeepsAlign`). `exists_realloc_misaligned` : each `realloc` that
does can misalign its block.

On macOS alignments above `1 << 31` are refused in `alloc` and `alloc_zeroed`, and `realloc`
makes no such test. `macos_run_congr` : it needs none, no run shows what mimalloc does there.
-/

namespace SpreadsNative

/-- The targets that have a `MIN_ALIGN`. -/
inductive TargetArch where
  | x86
  | arm
  | mips
  | powerpc
  | powerpc64
  | asmjs
  | wasm32
  | x86_64
  | aarch64
  | mips64
  | s390x
  | sparc64
  deriving DecidableEq

/-- `MIN_ALIGN`. -/
def TargetArch.minAlign : TargetArch → ℕ
  | .x86 | .arm | .mips | .powerpc | .powerpc64 | .asmjs | .wasm32 => 8
  | .x86_64 | .aarch64 | .mips64 | .s390x | .sparc64 => 16

/-- What the code is compiled for. -/
structure Target where
  arch : TargetArch
  /-- `target_os = "macos"`. -/
  macos : Bool
  deriving DecidableEq

/-- `core::alloc::Layout`. -/
structure Layout where
  size : ℕ
  align : ℕ
  isPowerOfTwo : align.isPowerOfTwo

/-- The layout of a block after it is resized. -/
def Layout.resize (l : Layout) (newSize : ℕ) : Layout :=
  { l with size := newSize }

/-- An address. -/
abbrev Ptr : Type :=
  ℕ

/-- The null pointer. -/
def null : Ptr := 0

/-- mimalloc, on heaps `H`. -/
structure Mimalloc (H : Type*) where
  miMalloc : H → (size : ℕ) → Ptr × H
  miZalloc : H → (size : ℕ) → Ptr × H
  miRealloc : H → Ptr → (newsize : ℕ) → Ptr × H
  miMallocAligned : H → (size alignment : ℕ) → Ptr × H
  miZallocAligned : H → (size alignment : ℕ) → Ptr × H
  miReallocAligned : H → Ptr → (newsize alignment : ℕ) → Ptr × H
  miFree : H → Ptr → H

/-- A block of `size` bytes is aligned to each power of two that is at most `minAlign` and
at most the size. -/
def NaturallyAligned (minAlign size : ℕ) (p : Ptr) : Prop :=
  p = null ∨ ∀ a : ℕ, a.isPowerOfTwo → a ≤ minAlign → a ≤ size → a ∣ p

/-- A block is aligned to `align`. -/
def AlignedTo (align : ℕ) (p : Ptr) : Prop :=
  p = null ∨ align ∣ p

/-- What mimalloc promises of the addresses it returns. -/
structure Mimalloc.Guarantees {H : Type*} (M : Mimalloc H) (minAlign : ℕ) : Prop where
  malloc : ∀ h size, NaturallyAligned minAlign size (M.miMalloc h size).1
  zalloc : ∀ h size, NaturallyAligned minAlign size (M.miZalloc h size).1
  /-- The block is where it was, or is a new one. -/
  realloc : ∀ h p newsize, (M.miRealloc h p newsize).1 = p ∨
    NaturallyAligned minAlign newsize (M.miRealloc h p newsize).1
  mallocAligned : ∀ h size alignment, AlignedTo alignment (M.miMallocAligned h size alignment).1
  zallocAligned : ∀ h size alignment, AlignedTo alignment (M.miZallocAligned h size alignment).1
  reallocAligned : ∀ h p newsize alignment,
    AlignedTo alignment (M.miReallocAligned h p newsize alignment).1

namespace SpreadsMalloc

variable {H : Type*}

/-- The test of all three operations : an unaligned entry will do. -/
def FitsMinAlign (target : Target) (layout : Layout) : Prop :=
  layout.align ≤ target.arch.minAlign ∧ layout.align ≤ layout.size

instance (target : Target) (layout : Layout) : Decidable (FitsMinAlign target layout) :=
  inferInstanceAs (Decidable (_ ∧ _))

/-- The body of `alloc` and `alloc_zeroed`, with the two entries. -/
def allocVia (unaligned : H → ℕ → Ptr × H) (aligned : H → ℕ → ℕ → Ptr × H) (target : Target)
    (h : H) (layout : Layout) : Ptr × H :=
  if FitsMinAlign target layout then unaligned h layout.size
  else if target.macos ∧ layout.align > 1 <<< 31 then (null, h)
  else aligned h layout.size layout.align

variable (M : Mimalloc H) (target : Target)

/-- `SpreadsMalloc::alloc`. -/
def alloc : H → Layout → Ptr × H :=
  allocVia M.miMalloc M.miMallocAligned target

/-- `SpreadsMalloc::alloc_zeroed`. -/
def allocZeroed : H → Layout → Ptr × H :=
  allocVia M.miZalloc M.miZallocAligned target

/-- `SpreadsMalloc::dealloc`. -/
def dealloc (h : H) (ptr : Ptr) (_layout : Layout) : H :=
  M.miFree h ptr

/-- `SpreadsMalloc::realloc`. -/
def realloc (h : H) (ptr : Ptr) (layout : Layout) (newSize : ℕ) : Ptr × H :=
  if FitsMinAlign target layout then M.miRealloc h ptr newSize
  else M.miReallocAligned h ptr newSize layout.align

/-! ## Runs under the contract -/

/-- A call of the `GlobalAlloc` interface. -/
inductive Call where
  | alloc (layout : Layout)
  | allocZeroed (layout : Layout)
  | dealloc (ptr : Ptr) (layout : Layout)
  | realloc (ptr : Ptr) (layout : Layout) (newSize : ℕ)

/-- A pointer that a call returned, with the layout of the block it denotes. -/
structure Returned where
  ptr : Ptr
  layout : Layout

/-- The heap, and the layouts of the blocks that are live in it. -/
structure World (H : Type*) where
  heap : H
  live : Ptr → Option Layout

/-- No block is live yet. -/
def World.start (h : H) : World H where
  heap := h
  live _ := none

/-- The block at `p` is no longer live. -/
def World.retire (w : World H) (p : Ptr) : World H :=
  { w with live := Function.update w.live p none }

/-- The block at `p` is live, with layout `l`. -/
def World.enter (w : World H) (p : Ptr) (l : Layout) : World H :=
  { w with live := Function.update w.live p (some l) }

/-- The allocator, seen by a client. A call that returns null changes no block. -/
def allocator : Machine (World H) Call Returned where
  step w
    | .alloc l =>
      let (p, h) := alloc M target w.heap l
      ([⟨p, l⟩], if p = null then { w with heap := h } else { w with heap := h }.enter p l)
    | .allocZeroed l =>
      let (p, h) := allocZeroed M target w.heap l
      ([⟨p, l⟩], if p = null then { w with heap := h } else { w with heap := h }.enter p l)
    | .dealloc p l => ([], { w with heap := dealloc M w.heap p l }.retire p)
    | .realloc p l newSize =>
      let (q, h) := realloc M target w.heap p l newSize
      ([⟨q, l.resize newSize⟩],
        if q = null then { w with heap := h }
        else ({ w with heap := h }.retire p).enter q (l.resize newSize))

/-- The contract of `GlobalAlloc` : sizes are not zero, and a block is freed or resized
while it is live, with its current layout. -/
def Obeys (w : World H) : Call → Prop
  | .alloc l | .allocZeroed l => 0 < l.size
  | .dealloc p l => w.live p = some l
  | .realloc p l newSize => w.live p = some l ∧ 0 < newSize

/-- Resizing `l` keeps its alignment, whatever mimalloc does : the alignment is above
`MIN_ALIGN`, or above the old size, or at most the new size. -/
def KeepsAlign (l : Layout) (newSize : ℕ) : Prop :=
  target.arch.minAlign < l.align ∨ l.size < l.align ∨ l.align ≤ newSize

/-- The call does not resize a block that loses its alignment. -/
def Call.KeepsAlign : Call → Prop
  | .realloc _ l newSize => SpreadsMalloc.KeepsAlign target l newSize
  | _ => True

/-- Every live block is aligned to its layout. -/
def World.Aligned (w : World H) : Prop :=
  ∀ p l, w.live p = some l → l.align ∣ p

variable {M target}

/-- A property of every live block is kept when a block is retired. -/
theorem World.forall_live_retire {P : Ptr → Layout → Prop} {w : World H}
    (hw : ∀ q l, w.live q = some l → P q l) (p : Ptr) :
    ∀ q l, (w.retire p).live q = some l → P q l := by
  intro q l hq
  unfold World.retire at hq
  by_cases hqp : q = p
  · subst hqp
    simp at hq
  · exact hw q l (by simpa [hqp] using hq)

theorem World.forall_live_enter {P : Ptr → Layout → Prop} {w : World H}
    (hw : ∀ q l, w.live q = some l → P q l) {p : Ptr} {l : Layout} (hp : P p l) :
    ∀ q k, (w.enter p l).live q = some k → P q k := by
  intro q k hq
  unfold World.enter at hq
  by_cases hqp : q = p
  · subst hqp
    obtain rfl : l = k := by simpa using hq
    exact hp
  · exact hw q k (by simpa [hqp] using hq)

/-- After a call, null changes no block and another pointer is a new block. -/
theorem World.forall_live_ite {P : Ptr → Layout → Prop} {v v' : World H} {p : Ptr} {l : Layout}
    (hv : ∀ q k, v.live q = some k → P q k) (hv' : ∀ q k, v'.live q = some k → P q k)
    (hp : p ≠ null → P p l) :
    ∀ q k, (if p = null then v else v'.enter p l).live q = some k → P q k := by
  split_ifs with hnull
  · exact hv
  · exact World.forall_live_enter hv' (hp hnull)

/-! ## One operation -/

theorem allocVia_alignedTo {unaligned : H → ℕ → Ptr × H} {aligned : H → ℕ → ℕ → Ptr × H} {h : H}
    (hu : ∀ size, NaturallyAligned target.arch.minAlign size (unaligned h size).1)
    (ha : ∀ size align, AlignedTo align (aligned h size align).1) (l : Layout) :
    AlignedTo l.align (allocVia unaligned aligned target h l).1 := by
  unfold allocVia
  split_ifs with hfits hmacos
  · rcases hu l.size with hnull | hdvd
    · exact Or.inl hnull
    · exact Or.inr (hdvd l.align l.isPowerOfTwo hfits.1 hfits.2)
  · exact Or.inl rfl
  · exact ha l.size l.align

variable (hM : M.Guarantees target.arch.minAlign)

include hM

/-- `realloc` aligns the block, if resizing it keeps its alignment. -/
theorem realloc_alignedTo {h : H} {p : Ptr} {l : Layout} {newSize : ℕ} (hp : l.align ∣ p)
    (hkeeps : KeepsAlign target l newSize) :
    AlignedTo l.align (realloc M target h p l newSize).1 := by
  unfold realloc
  split_ifs with hfits
  · have hnew : l.align ≤ newSize := by
      obtain ⟨hmin, hsize⟩ := hfits
      rcases hkeeps with h | h | h <;> omega
    rcases hM.realloc h p newSize with hsame | hnull | hdvd
    · exact Or.inr (hsame.symm ▸ hp)
    · exact Or.inl hnull
    · exact Or.inr (hdvd l.align l.isPowerOfTwo hfits.1 hnew)
  · exact hM.reallocAligned h p newSize l.align

/-- A call under the contract keeps every live block aligned, and returns an aligned one. -/
theorem step_aligned (w : World H) (c : Call) (hw : w.Aligned)
    (hc : Obeys w c ∧ c.KeepsAlign target) :
    ((allocator M target).step w c).2.Aligned ∧
      ∀ r ∈ ((allocator M target).step w c).1, AlignedTo r.layout.align r.ptr := by
  obtain ⟨hobeys, hkeeps⟩ := hc
  cases c with
  | alloc l =>
    have hp : AlignedTo l.align (alloc M target w.heap l).1 :=
      allocVia_alignedTo (hM.malloc _) (hM.mallocAligned _) l
    exact ⟨World.forall_live_ite hw hw hp.resolve_left, List.forall_mem_singleton.mpr hp⟩
  | allocZeroed l =>
    have hp : AlignedTo l.align (allocZeroed M target w.heap l).1 :=
      allocVia_alignedTo (hM.zalloc _) (hM.zallocAligned _) l
    exact ⟨World.forall_live_ite hw hw hp.resolve_left, List.forall_mem_singleton.mpr hp⟩
  | dealloc p l => exact ⟨World.forall_live_retire hw p, by simp [allocator]⟩
  | realloc p l newSize =>
    obtain ⟨hlive, -⟩ := hobeys
    have hq : AlignedTo (l.resize newSize).align (realloc M target w.heap p l newSize).1 :=
      realloc_alignedTo hM (hw p l hlive) hkeeps
    exact ⟨World.forall_live_ite hw (World.forall_live_retire hw p) hq.resolve_left,
      List.forall_mem_singleton.mpr hq⟩

/-- In every run under the contract that resizes no block below its alignment, every
pointer returned is null or aligned to the layout of its block, and so is every block that
is live in the end. -/
theorem returned_aligned (h : H) (calls : List Call)
    (hobeys : (allocator M target).Admissible Obeys calls (.start h))
    (hkeeps : ∀ c ∈ calls, c.KeepsAlign target) :
    (∀ r ∈ ((allocator M target).run calls (.start h)).1, AlignedTo r.layout.align r.ptr) ∧
      ((allocator M target).run calls (.start h)).2.Aligned := by
  have hstart : (World.start h).Aligned := fun p l hl => by simp [World.start] at hl
  exact ((allocator M target).run_invariant_of_admissible (step_aligned hM) calls _
    (hobeys.and_forall hkeeps) hstart).symm

omit hM

/-! ## Concrete heaps -/

/-- A power of two divides each larger one. -/
theorem isPowerOfTwo_dvd {a b : ℕ} (ha : a.isPowerOfTwo) (hb : b.isPowerOfTwo) (h : a ≤ b) :
    a ∣ b := by
  obtain ⟨i, rfl⟩ := ha
  obtain ⟨j, rfl⟩ := hb
  exact Nat.pow_dvd_pow 2 ((Nat.pow_le_pow_iff_right Nat.one_lt_two).mp h)

/-- A heap filled from the bottom. -/
structure BumpHeap where
  /-- The first address that is not in use. -/
  next : ℕ
  /-- The size class of each block. -/
  usable : Ptr → ℕ

namespace BumpHeap

/-- A new block of `size` bytes at the next multiple of `align`. -/
def place (h : BumpHeap) (size align : ℕ) : Ptr × BumpHeap :=
  let p := (h.next + align - 1) / align * align
  (p, ⟨p + size, Function.update h.usable p size⟩)

/-- A new block in the size class of `size` : 8 bytes, or a multiple of 16. -/
def small (h : BumpHeap) (size : ℕ) : Ptr × BumpHeap :=
  if size ≤ 8 then h.place 8 8 else h.place ((size + 15) / 16 * 16) 16

/-- A block stays where it is if its new size fills at least half of its size class. -/
def Fits (h : BumpHeap) (p : Ptr) (newsize : ℕ) : Prop :=
  newsize ≤ h.usable p ∧ h.usable p / 2 ≤ newsize

instance (h : BumpHeap) (p : Ptr) (newsize : ℕ) : Decidable (h.Fits p newsize) :=
  inferInstanceAs (Decidable (_ ∧ _))

/-- A mimalloc with these size classes. -/
def mimalloc : Mimalloc BumpHeap where
  miMalloc := small
  miZalloc := small
  miRealloc h p newsize := if h.Fits p newsize then (p, h) else h.small newsize
  miMallocAligned := place
  miZallocAligned := place
  miReallocAligned h p newsize alignment :=
    if h.Fits p newsize ∧ alignment ∣ p then (p, h) else h.place newsize alignment
  miFree h _ := h

theorem alignedTo_place (h : BumpHeap) (size align : ℕ) : AlignedTo align (h.place size align).1 :=
  Or.inr (Nat.dvd_mul_left _ _)

theorem naturallyAligned_small (h : BumpHeap) (size : ℕ) :
    NaturallyAligned 16 size (h.small size).1 := by
  refine Or.inr fun a ha hmin hsize => ?_
  unfold small
  split_ifs with h8
  · exact Nat.dvd_trans (isPowerOfTwo_dvd ha ⟨3, rfl⟩ (hsize.trans h8)) (Nat.dvd_mul_left _ _)
  · exact Nat.dvd_trans (isPowerOfTwo_dvd ha ⟨4, rfl⟩ hmin) (Nat.dvd_mul_left _ _)

theorem guarantees_mimalloc : mimalloc.Guarantees 16 where
  malloc := naturallyAligned_small
  zalloc := naturallyAligned_small
  realloc h p newsize := by
    by_cases hfits : h.Fits p newsize
    · exact Or.inl (by simp [mimalloc, hfits])
    · exact Or.inr (by simpa [mimalloc, hfits] using h.naturallyAligned_small newsize)
  mallocAligned := alignedTo_place
  zallocAligned := alignedTo_place
  reallocAligned h p newsize alignment := by
    by_cases hfits : h.Fits p newsize ∧ alignment ∣ p
    · exact Or.inr (by simp [mimalloc, hfits])
    · simpa [mimalloc, hfits] using h.alignedTo_place newsize alignment

/-- An empty heap. -/
def start : BumpHeap where
  next := 4096
  usable _ := 0

end BumpHeap

/-- Linux on x86-64. -/
def linuxX64 : Target where
  arch := .x86_64
  macos := false

/-- A block that grows, moves and is freed. -/
def growCalls : List Call :=
  [.alloc ⟨16, 16, 4, rfl⟩, .realloc 4096 ⟨16, 16, 4, rfl⟩ 48, .dealloc 4112 ⟨48, 16, 4, rfl⟩]

theorem obeys_growCalls :
    (allocator BumpHeap.mimalloc linuxX64).Admissible Obeys growCalls (.start BumpHeap.start) :=
  ⟨by simp [Obeys], ⟨rfl, by decide⟩, rfl, trivial⟩

theorem growCalls_aligned :
    (∀ r ∈ ((allocator BumpHeap.mimalloc linuxX64).run growCalls (.start BumpHeap.start)).1,
      AlignedTo r.layout.align r.ptr) ∧
    ((allocator BumpHeap.mimalloc linuxX64).run growCalls (.start BumpHeap.start)).2.Aligned :=
  returned_aligned BumpHeap.guarantees_mimalloc BumpHeap.start growCalls obeys_growCalls
    (by simp [growCalls, Call.KeepsAlign, KeepsAlign])

/-- A block of 16 bytes aligned to 16 that shrinks to 4 bytes, after one of 8 bytes. -/
def shrinkCalls : List Call :=
  [.alloc ⟨16, 16, 4, rfl⟩, .alloc ⟨8, 8, 3, rfl⟩, .realloc 4096 ⟨16, 16, 4, rfl⟩ 4]

/-- The run obeys the contract, but the block that shrinks comes back at 4120. -/
theorem shrinkCalls_misaligned :
    BumpHeap.mimalloc.Guarantees linuxX64.arch.minAlign ∧
    (allocator BumpHeap.mimalloc linuxX64).Admissible Obeys shrinkCalls (.start BumpHeap.start) ∧
    ∃ r ∈ ((allocator BumpHeap.mimalloc linuxX64).run shrinkCalls (.start BumpHeap.start)).1,
      r.ptr = 4120 ∧ r.layout.align = 16 ∧ ¬ AlignedTo r.layout.align r.ptr := by
  refine ⟨BumpHeap.guarantees_mimalloc,
    ⟨by simp [Obeys], by simp [Obeys], ⟨rfl, by decide⟩, trivial⟩,
    ⟨4120, 4, 16, 4, rfl⟩, ?_, rfl, rfl, ?_⟩
  · exact .tail _ (.tail _ (.head _))
  · rintro (hnull | hdvd)
    · exact absurd hnull (by decide)
    · exact absurd hdvd (by decide)

/-- A mimalloc that aligns blocks no more than it must. -/
def tightMimalloc (minAlign : ℕ) : Mimalloc Unit where
  miMalloc h size := (2 ^ Nat.log 2 (min minAlign size), h)
  miZalloc h size := (2 ^ Nat.log 2 (min minAlign size), h)
  miRealloc h _ newsize := (2 ^ Nat.log 2 (min minAlign newsize), h)
  miMallocAligned h _ alignment := (alignment, h)
  miZallocAligned h _ alignment := (alignment, h)
  miReallocAligned h _ _ alignment := (alignment, h)
  miFree h _ := h

theorem naturallyAligned_log (minAlign size : ℕ) :
    NaturallyAligned minAlign size (2 ^ Nat.log 2 (min minAlign size)) := by
  refine Or.inr fun a ha hmin hsize => ?_
  obtain ⟨i, rfl⟩ := ha
  exact Nat.pow_dvd_pow 2 (Nat.le_log_of_pow_le Nat.one_lt_two (le_min hmin hsize))

theorem guarantees_tightMimalloc (minAlign : ℕ) : (tightMimalloc minAlign).Guarantees minAlign where
  malloc _ := naturallyAligned_log minAlign
  zalloc _ := naturallyAligned_log minAlign
  realloc _ _ newsize := Or.inr (naturallyAligned_log minAlign newsize)
  mallocAligned _ _ _ := Or.inr (Nat.dvd_refl _)
  zallocAligned _ _ _ := Or.inr (Nat.dvd_refl _)
  reallocAligned _ _ _ _ := Or.inr (Nat.dvd_refl _)

/-- The condition is exact : a block that is resized without it can lose its alignment. -/
theorem exists_realloc_misaligned (target : Target) {l : Layout} {newSize : ℕ}
    (hsize : 0 < l.size) (hnew : 0 < newSize) (hnot : ¬ KeepsAlign target l newSize) :
    ∃ p, (allocator (tightMimalloc target.arch.minAlign) target).Admissible Obeys
        [.alloc l, .realloc p l newSize] (.start ()) ∧
      ∃ r ∈ ((allocator (tightMimalloc target.arch.minAlign) target).run
        [.alloc l, .realloc p l newSize] (.start ())).1, ¬ AlignedTo r.layout.align r.ptr := by
  unfold KeepsAlign at hnot
  simp only [not_or, not_lt, not_le] at hnot
  obtain ⟨hmin, hle, hlt⟩ := hnot
  have hfits : FitsMinAlign target l := ⟨hmin, hle⟩
  -- the first block is not null, so it is live, and the second is the tightest for its size
  have hpos : (2 ^ Nat.log 2 (min target.arch.minAlign l.size) : ℕ) ≠ null :=
    (Nat.two_pow_pos _).ne'
  refine ⟨2 ^ Nat.log 2 (min target.arch.minAlign l.size), ⟨hsize, ⟨?_, hnew⟩, trivial⟩,
    ⟨2 ^ Nat.log 2 (min target.arch.minAlign newSize), l.resize newSize⟩, ?_, ?_⟩
  · simp [allocator, alloc, allocVia, hfits, tightMimalloc, hpos, World.enter]
  · simp [allocator, alloc, allocVia, realloc, hfits, tightMimalloc]
  · rintro (hnull | hdvd)
    · exact absurd hnull (Nat.two_pow_pos _).ne'
    · have hlog := Nat.pow_log_le_self 2 (x := min target.arch.minAlign newSize) (by omega)
      have hle' := Nat.le_of_dvd (Nat.two_pow_pos _) hdvd
      change l.align ≤ _ at hle'
      omega

/-! ## The limit on macOS -/

/-- The alignment above which an allocation on macOS is refused. -/
def macosMaxAlign : ℕ := 1 <<< 31

/-- Two mimallocs that differ at most in aligned calls above that alignment. -/
structure AgreeUpToMacosMaxAlign (M N : Mimalloc H) : Prop where
  malloc : N.miMalloc = M.miMalloc
  zalloc : N.miZalloc = M.miZalloc
  realloc : N.miRealloc = M.miRealloc
  free : N.miFree = M.miFree
  mallocAligned : ∀ h size alignment, alignment ≤ macosMaxAlign →
    N.miMallocAligned h size alignment = M.miMallocAligned h size alignment
  zallocAligned : ∀ h size alignment, alignment ≤ macosMaxAlign →
    N.miZallocAligned h size alignment = M.miZallocAligned h size alignment
  reallocAligned : ∀ h p newsize alignment, alignment ≤ macosMaxAlign →
    N.miReallocAligned h p newsize alignment = M.miReallocAligned h p newsize alignment

/-- No live block is aligned to more. -/
def World.WithinMaxAlign (w : World H) : Prop :=
  ∀ p l, w.live p = some l → l.align ≤ macosMaxAlign

section Macos

variable {M N : Mimalloc H} {target : Target} (hmacos : target.macos = true)

include hmacos

/-- What is not refused is aligned to no more. -/
theorem align_le_of_allocVia_ne_null {unaligned : H → ℕ → Ptr × H}
    {aligned : H → ℕ → ℕ → Ptr × H} {h : H} {l : Layout}
    (hne : (allocVia unaligned aligned target h l).1 ≠ null) : l.align ≤ macosMaxAlign := by
  unfold allocVia at hne
  split_ifs at hne with hfits hrefused
  · have hmin : target.arch.minAlign ≤ 16 := by
      cases target.arch <;> decide
    exact (hfits.1.trans hmin).trans (by decide)
  · exact absurd rfl hne
  · exact not_lt.mp fun hlt => hrefused ⟨hmacos, hlt⟩

/-- The aligned entry is not called with more. -/
theorem allocVia_congr {unaligned : H → ℕ → Ptr × H} {aligned aligned' : H → ℕ → ℕ → Ptr × H}
    (hagree : ∀ h size alignment, alignment ≤ macosMaxAlign →
      aligned' h size alignment = aligned h size alignment) (h : H) (l : Layout) :
    allocVia unaligned aligned' target h l = allocVia unaligned aligned target h l := by
  unfold allocVia
  split_ifs with hfits hrefused
  · rfl
  · rfl
  · exact hagree h l.size l.align (not_lt.mp fun hlt => hrefused ⟨hmacos, hlt⟩)

theorem step_withinMaxAlign (w : World H) (c : Call) (hw : w.WithinMaxAlign) (hc : Obeys w c) :
    ((allocator M target).step w c).2.WithinMaxAlign := by
  cases c with
  | alloc l => exact World.forall_live_ite hw hw (align_le_of_allocVia_ne_null hmacos)
  | allocZeroed l => exact World.forall_live_ite hw hw (align_le_of_allocVia_ne_null hmacos)
  | dealloc p l => exact World.forall_live_retire hw p
  | realloc p l newSize =>
    exact World.forall_live_ite hw (World.forall_live_retire hw p) fun _ => hw p l hc.1

theorem step_congr (hMN : AgreeUpToMacosMaxAlign M N) (w : World H) (c : Call)
    (hw : w.WithinMaxAlign) (hc : Obeys w c) :
    (allocator N target).step w c = (allocator M target).step w c := by
  have halloc : ∀ l, alloc N target w.heap l = alloc M target w.heap l := by
    intro l
    rw [alloc, alloc, hMN.malloc]
    exact allocVia_congr hmacos hMN.mallocAligned w.heap l
  have hzeroed : ∀ l, allocZeroed N target w.heap l = allocZeroed M target w.heap l := by
    intro l
    rw [allocZeroed, allocZeroed, hMN.zalloc]
    exact allocVia_congr hmacos hMN.zallocAligned w.heap l
  cases c with
  | alloc l => simp only [allocator, halloc]
  | allocZeroed l => simp only [allocator, hzeroed]
  | dealloc p l => simp only [allocator, dealloc, hMN.free]
  | realloc p l newSize =>
    have hrealloc : realloc N target w.heap p l newSize = realloc M target w.heap p l newSize := by
      rw [realloc, realloc, hMN.realloc, hMN.reallocAligned _ _ _ _ (hw p l hc.1)]
    simp only [allocator, hrealloc]

/-- On macOS, in every run under the contract, what mimalloc does above the alignment limit
does not matter : no aligned entry is called with more. `realloc` needs no check of its own,
as no block with more is ever live. -/
theorem macos_run_congr (hMN : AgreeUpToMacosMaxAlign M N) (h : H) (calls : List Call)
    (hobeys : (allocator M target).Admissible Obeys calls (.start h)) :
    (allocator N target).run calls (.start h) = (allocator M target).run calls (.start h) :=
  (allocator M target).run_eq_of_admissible (step_withinMaxAlign hmacos) (step_congr hmacos hMN)
    calls _ hobeys fun p l hl => by simp [World.start] at hl

end Macos

/-- macOS on ARM. -/
def macosAarch64 : Target where
  arch := .aarch64
  macos := true

/-- A mimalloc whose aligned entries fail above the limit. -/
def limitedMimalloc : Mimalloc BumpHeap :=
  { BumpHeap.mimalloc with
    miMallocAligned h size alignment :=
      if alignment ≤ macosMaxAlign then BumpHeap.mimalloc.miMallocAligned h size alignment
      else (null, h)
    miZallocAligned h size alignment :=
      if alignment ≤ macosMaxAlign then BumpHeap.mimalloc.miZallocAligned h size alignment
      else (null, h)
    miReallocAligned h p newsize alignment :=
      if alignment ≤ macosMaxAlign then
        BumpHeap.mimalloc.miReallocAligned h p newsize alignment
      else (null, h) }

theorem limitedMimalloc_agrees : AgreeUpToMacosMaxAlign BumpHeap.mimalloc limitedMimalloc where
  malloc := rfl
  zalloc := rfl
  realloc := rfl
  free := rfl
  mallocAligned _ _ _ hle := if_pos hle
  zallocAligned _ _ _ hle := if_pos hle
  reallocAligned _ _ _ _ hle := if_pos hle

/-- Two allocations that are refused, and a block aligned to 64 that grows and is freed. -/
def hugeAlignCalls : List Call :=
  [.alloc ⟨8, 2 ^ 32, 32, rfl⟩, .allocZeroed ⟨8, 2 ^ 33, 33, rfl⟩, .alloc ⟨64, 64, 6, rfl⟩,
    .realloc 4096 ⟨64, 64, 6, rfl⟩ 128, .dealloc 4160 ⟨128, 64, 6, rfl⟩]

theorem hugeAlignCalls_limited :
    (allocator limitedMimalloc macosAarch64).run hugeAlignCalls (.start BumpHeap.start) =
      (allocator BumpHeap.mimalloc macosAarch64).run hugeAlignCalls (.start BumpHeap.start) :=
  macos_run_congr rfl limitedMimalloc_agrees BumpHeap.start hugeAlignCalls
    ⟨by simp [Obeys], by simp [Obeys], by simp [Obeys], ⟨rfl, by decide⟩, rfl, trivial⟩

end SpreadsMalloc

end SpreadsNative
