import SpreadsNative.HeapApi

/-!
# One heap, then many

Rust code always allocates from the default heap of the thread it runs on, and managed code
may make any heap of its own the default (`Mem.HeapSetDefault`). A heap that managed code
destroys (`Mem.HeapDestroy`) takes all its blocks with it, Rust's too.

`heaps` runs the calls of both sides of `process` on any number of threads, none of which
ends, with the calls of managed code that make, use and drop heaps in between.
`heaps_backs` : if no heap is destroyed that was a default heap, then in every run mimalloc's
blocks are the blocks the two sides hold, and a destroyed heap takes exactly the blocks that
its own calls made.
`heaps_other_side_undisturbed` : then nothing that one side does changes a block of the other.
`destroyed_default_takes_blocks` : without that condition Rust loses its blocks.
`heapGetDefault_run` : the default heap of a thread is decided by this thread's events alone,
whatever heaps are destroyed.
-/

open Blocks

namespace SpreadsNative

/-- The process, and what managed code knows of its heaps. -/
structure Heaps (H : Type*) extends Process H where
  /-- Both sides may have blocks in the heap : it was there at the start, or was a default
  heap. -/
  shared : Ptr → Bool
  /-- The heap that managed code gave to the call that made a block, if it gave one. -/
  source : Ptr → Option Ptr

/-- No block is held yet, and managed code has made no heap. -/
def Heaps.start {H θ : Type*} (V : HeapMemory H θ) (h : H) : Heaps H where
  toProcess := .start h
  shared heap := (V.thread h heap).isSome
  source _ := none

/-- After a call that was given `heap`. -/
def Heaps.advance {H : Type*} (w : Heaps H) (p : Process H) (heap : Option Ptr) : Heaps H where
  toProcess := p
  shared := w.shared
  source q :=
    match w.ledger q with
    | none => heap
    | some _ => w.source q

/-- What happens on a thread. -/
inductive HeapEvent where
  | event (e : Event)
  | call (heap : Ptr) (c : Mem.HeapCall)
  | heapNew
  | heapDelete (heap : Ptr)
  | heapDestroy (heap : Ptr)
  | heapSetDefault (heap : Ptr)
  | heapContainsBlock (heap p : Ptr) (upper : BitVec 24)

/-- What it shows. Beside an answer stands what managed code knows of it. -/
inductive HeapShown where
  | shown (s : Shown)
  | contains (known : Option Bool) (upper : BitVec 24) (b : Bool)

/-- The two sides on any number of threads. -/
def heaps {H θ : Type*} (M : θ → HeapApi H) (V : HeapMemory H θ) (target : Target) :
    Machine (Heaps H) (θ × HeapEvent) HeapShown where
  step w
    | (k, .event e) =>
      let (shown, p) := (process (M k).toMimallocApi V.toMemory target).step w.toProcess e
      (shown.map .shown, w.advance p none)
    | (k, .call heap c) =>
      let (q, h) := c.perform (M k) w.heap heap
      ([.shown (.returned q)],
        w.advance ⟨h, w.ledger.apply q (c.call.op target.arch.usizeBits)⟩ (some heap))
    | (k, .heapNew) =>
      let (heap, h) := spreadsMemHeapNew (M k) w.heap
      ([.shown (.returned heap)],
        { w with
          heap := h
          shared := if heap = null then w.shared else Function.update w.shared heap false })
    | (k, .heapDelete heap) =>
      ([],
        { w with
          heap := spreadsMemHeapDelete (M k) w.heap heap
          source := fun p => if w.source p = some heap then none else w.source p })
    | (k, .heapDestroy heap) =>
      ([],
        { w with
          heap := spreadsMemHeapDestroy (M k) w.heap heap
          ledger := fun p => if w.source p = some heap then none else w.ledger p })
    | (k, .heapSetDefault heap) =>
      let (old, h) := spreadsMemHeapSetDefault (M k) w.heap heap
      ([.shown (.returned old)],
        { w with
          heap := h
          shared := Function.update w.shared heap true })
    | (k, .heapContainsBlock heap p upper) =>
      ([.contains (if w.shared heap then none else some (w.source p = some heap)) upper
        (Mem.heapContainsBlock (M k) w.heap heap p upper)], w)

/-- The side that acts. -/
def HeapEvent.side : HeapEvent → Side
  | .event e => e.side
  | .call _ _ | .heapNew | .heapDelete _ | .heapDestroy _ | .heapSetDefault _
  | .heapContainsBlock _ _ _ => .managed

/-- Each side obeys its contract, a heap is used by the thread that made it, and no heap is
destroyed that both sides may have blocks in. -/
def HeapEvent.Obeys {H θ : Type*} (V : HeapMemory H θ) (target : Target) (w : Heaps H) :
    θ × HeapEvent → Prop
  | (_, .event e) => e.Obeys target w.toProcess
  | (k, .call heap c) =>
    V.thread w.heap heap = some k ∧ c.call.Obeys target.arch.usizeBits w.ledger
  | (_, .heapNew) => True
  | (k, .heapDelete heap) => V.thread w.heap heap = some k ∧ heap ≠ V.backing k
  | (k, .heapDestroy heap) => V.thread w.heap heap = some k ∧ w.shared heap = false
  | (k, .heapSetDefault heap) => V.thread w.heap heap = some k
  | (k, .heapContainsBlock heap p _) => V.thread w.heap heap = some k ∧ ∃ b, w.ledger p = some b

/-- Without the contract : calls are given pointers of blocks and heaps of their thread, and no
backing heap is dropped. -/
def HeapEvent.Given {H θ : Type*} (V : HeapMemory H θ) (target : Target) (w : Heaps H) :
    θ × HeapEvent → Prop
  | (_, .event e) => e.Given V.toView target w.heap
  | (k, .call heap c) =>
    V.thread w.heap heap = some k ∧ c.call.Given V.toView target.arch.usizeBits w.heap
  | (_, .heapNew) => True
  | (k, .heapDelete heap) | (k, .heapDestroy heap) =>
    V.thread w.heap heap = some k ∧ heap ≠ V.backing k
  | (k, .heapSetDefault heap) => V.thread w.heap heap = some k
  | (k, .heapContainsBlock heap p _) => V.thread w.heap heap = some k ∧ V.usable w.heap p ≠ none

/-- What is shown agrees with what is known. A known `true` is always read as one, and a known
`false` if the upper bytes are clear. -/
def HeapShown.Agrees : HeapShown → Prop
  | .shown s => s.Agrees
  | .contains known upper b => ∀ x, known = some x → b = readBool x upper

/-- On thread 0 managed code allocates from a heap of its own, and on thread 1 Rust from the
default heap. -/
def ownHeap : List (ℕ × HeapEvent) :=
  [(0, .heapNew), (0, .call 2 (.heapMalloc 8)), (1, .event (.rust (.allocZeroed thirtyTwoBytes)))]

/-- Managed code asks which blocks its heap contains, makes another, deletes that, which keeps
its block, and destroys the first. -/
def dropsHeaps : List (ℕ × HeapEvent) :=
  [(0, .heapContainsBlock 2 4096 0), (0, .heapContainsBlock 2 4128 7), (0, .heapNew),
    (0, .call 4 (.heapZalloc 16)), (0, .event (.store .managed 4176 0 9)), (0, .heapDelete 4),
    (0, .event (.load .managed 4176 0)), (0, .heapDestroy 2), (1, .event (.load .rust 4128 0)),
    (0, .event (.managed (.free 4176)))]

/-- On thread 1 managed code makes a heap of its own the default one. -/
def madeDefault : List (ℕ × HeapEvent) :=
  [(1, .heapNew), (1, .heapSetDefault 2)]

/-- Managed code uses this heap, and on thread 0 one that it deletes. -/
def usesHeaps : List (ℕ × HeapEvent) :=
  [(1, .call 2 (.heapMalloc 8)), (0, .heapNew), (0, .heapSetDefault 4), (0, .heapDelete 4)]

theorem obeys_ownHeap :
    (heaps ArenaHeap.mimalloc ArenaHeap.memory SpreadsMalloc.linuxX64).Admissible
      (HeapEvent.Obeys ArenaHeap.memory SpreadsMalloc.linuxX64) ownHeap
      (.start ArenaHeap.memory ArenaHeap.start) :=
  ⟨trivial, ⟨rfl, trivial⟩, Nat.succ_pos 31, trivial⟩

theorem obeys_dropsHeaps :
    (heaps ArenaHeap.mimalloc ArenaHeap.memory SpreadsMalloc.linuxX64).Admissible
      (HeapEvent.Obeys ArenaHeap.memory SpreadsMalloc.linuxX64) (ownHeap ++ dropsHeaps)
      (.start ArenaHeap.memory ArenaHeap.start) :=
  Machine.admissible_append.mpr ⟨obeys_ownHeap, ⟨rfl, _, rfl⟩, ⟨rfl, _, rfl⟩, trivial,
    ⟨rfl, trivial⟩, ⟨_, rfl, rfl, Nat.succ_pos 15⟩, ⟨rfl, by decide⟩,
    ⟨_, rfl, rfl, Nat.succ_pos 15⟩, ⟨rfl, rfl⟩, ⟨_, rfl, rfl, Nat.succ_pos 31⟩,
    Or.inr ⟨_, rfl, rfl⟩, trivial⟩

theorem obeys_madeDefault :
    (heaps ArenaHeap.mimalloc ArenaHeap.memory SpreadsMalloc.linuxX64).Admissible
      (HeapEvent.Obeys ArenaHeap.memory SpreadsMalloc.linuxX64)
      (madeDefault ++ (1, .event (.rust (.allocZeroed thirtyTwoBytes))) :: usesHeaps)
      (.start ArenaHeap.memory ArenaHeap.start) :=
  ⟨trivial, rfl, Nat.succ_pos 31, ⟨rfl, trivial⟩, trivial, rfl, ⟨rfl, by decide⟩, trivial⟩

/-! ## What heaps the blocks are in -/

/-- A block of `side` is in `home` : a heap that is shared, or one whose call made it for
managed code. -/
def Sourced (shared : Ptr → Bool) (home : Ptr) (side : Side) : Option Ptr → Prop
  | none => shared home = true
  | some heap => home = heap ∧ side = .managed

section

variable {H θ : Type*} {V : HeapMemory H θ} {w : Heaps H}

/-- The heap backs the ledger, each block is in a heap that its source tells, and default
heaps are shared. -/
structure Heaps.Sound (V : HeapMemory H θ) (w : Heaps H) : Prop where
  backs : Backs V.toView w.heap w.ledger
  sourced : ∀ p b, w.ledger p = some b →
    Sourced w.shared (V.home w.heap p) b.owner.side (w.source p)
  default : ∀ k, w.shared (V.default w.heap k) = true
  backing : ∀ k, w.shared (V.backing k) = true

theorem Heaps.sound_start {h : H} (hempty : ∀ p, V.usable h p = none) :
    (Heaps.start V h).Sound V where
  backs := backs_empty hempty
  sourced _ _ hp := absurd hp nofun
  default k := by simp [start, Process.start, V.default_eq_some]
  backing k := by simp [start, V.backing_eq_some]

/-- A heap that is not shared has exactly the blocks that its calls made. -/
theorem Heaps.Sound.home_eq_iff (hw : w.Sound V) {p heap : Ptr} {b : Block Owner UInt8}
    (hp : w.ledger p = some b) (hheap : w.shared heap = false) :
    V.home w.heap p = heap ↔ w.source p = some heap := by
  have hsourced := hw.sourced p b hp
  cases hsource : w.source p with
  | none =>
    rw [hsource] at hsourced
    refine iff_of_false (fun hhome => ?_) (Option.some_ne_none heap).symm
    rw [Sourced, hhome, hheap] at hsourced
    exact absurd hsourced Bool.false_ne_true
  | some heap' =>
    rw [hsource] at hsourced
    rw [hsourced.1, Option.some_inj]

/-- A backing heap is shared. -/
theorem Heaps.Sound.ne_backing (hw : w.Sound V) {heap : Ptr} (hheap : w.shared heap = false)
    (k : θ) : heap ≠ V.backing k := by
  rintro rfl
  exact absurd (hheap.symm.trans (hw.backing k)) Bool.false_ne_true

/-- Rust has its blocks in shared heaps. -/
theorem Heaps.Sound.source_of_rust (hw : w.Sound V) {p : Ptr} {b : Block Owner UInt8}
    (hp : w.ledger p = some b) (hb : b.owner.side = .rust) : w.source p = none := by
  have hsourced := hw.sourced p b hp
  cases hsource : w.source p with
  | none => rfl
  | some heap =>
    rw [hsource] at hsourced
    exact absurd (hb.symm.trans hsourced.2) nofun

/-- A call that puts new blocks in `home` keeps this, if its new blocks may be there. -/
theorem Heaps.Sound.advance (hw : w.Sound V) {p : Process H} {home : Ptr} {heap : Option Ptr}
    (hbacks : Backs V.toView p.heap p.ledger) (hhomed : V.Homed w.heap p.heap home)
    (hside : ∀ q b b', w.ledger q = some b → p.ledger q = some b' →
      b'.owner.side = b.owner.side)
    (hnew : ∀ q b, w.ledger q = none → p.ledger q = some b →
      Sourced w.shared home b.owner.side heap) :
    (w.advance p heap).Sound V where
  backs := hbacks
  sourced q b hq := by
    have hhome := hhomed.home q (hbacks.usable_ne_none hq)
    change Sourced w.shared (V.home p.heap q) b.owner.side
      (match w.ledger q with | none => heap | some _ => w.source q)
    cases hold : w.ledger q with
    | none =>
      rw [hhome, if_pos (hw.backs.usable_eq_none hold)]
      exact hnew q b hold hq
    | some b₀ =>
      rw [hhome, if_neg (hw.backs.usable_ne_none hold), hside q b₀ b hold hq]
      exact hw.sourced q b₀ hold
  default k := by
    change w.shared (V.default p.heap k) = true
    rw [hhomed.default]
    exact hw.default k
  backing := hw.backing

/-- A new heap has no blocks yet. -/
theorem Heaps.Sound.heapNew (hw : w.Sound V) {h : H} {k : θ} {heap : Ptr}
    (hh : V.Makes w.heap h k heap) :
    Heaps.Sound V { w with
      heap := h
      shared := if heap = null then w.shared else Function.update w.shared heap false } := by
  -- every heap that is there is another one
  have hshared : ∀ o, V.thread w.heap o ≠ none →
      (if heap = null then w.shared else Function.update w.shared heap false) o = w.shared o := by
    intro o ho
    split_ifs with hnull
    · rfl
    · exact Function.update_of_ne (fun heq : o = heap => ho (heq ▸ hh.fresh hnull)) _ _
  refine ⟨hw.backs.same hh.same, fun p b hp => ?_, fun k => ?_, fun k => ?_⟩
  · have hused := hw.backs.usable_ne_none hp
    have hsourced := hw.sourced p b hp
    change Sourced _ (V.home h p) b.owner.side (w.source p)
    rw [hh.home p hused]
    cases hsource : w.source p with
    | none =>
      rw [hsource] at hsourced
      exact (hshared _ (V.home_ne_none _ p hused)).trans hsourced
    | some o =>
      rw [hsource] at hsourced
      exact hsourced
  · have hthread := V.default_eq_some w.heap k
    refine Eq.trans ?_ (hw.default k)
    rw [hh.default]
    exact hshared _ (by rw [hthread]; exact Option.some_ne_none k)
  · have hthread := V.backing_eq_some w.heap k
    exact (hshared _ (by rw [hthread]; exact Option.some_ne_none k)).trans (hw.backing k)

/-- After a heap is gone, threads have a shared heap as default. -/
theorem HeapMemory.Drops.shared_default (hw : w.Sound V) {h : H} {heap : Ptr}
    (hh : V.Drops w.heap h heap) (k : θ) : w.shared (V.default h k) = true := by
  rw [hh.default]
  split_ifs
  · exact hw.backing k
  · exact hw.default k

/-- The blocks of a deleted heap are in a shared one. -/
theorem Heaps.Sound.heapDelete (hw : w.Sound V) {h : H} {k : θ} {heap : Ptr}
    (hh : V.Deletes w.heap h k heap) :
    Heaps.Sound V { w with
      heap := h
      source := fun p => if w.source p = some heap then none else w.source p } := by
  obtain ⟨heir, hheir, hhome⟩ := hh.home
  have hshared : w.shared heir = true := by
    rcases hheir with rfl | rfl
    · exact hw.backing k
    · exact hh.shared_default hw k
  refine ⟨hw.backs.same hh.same, fun p b hp => ?_, hh.shared_default hw, hw.backing⟩
  have hsourced := hw.sourced p b hp
  change Sourced w.shared (V.home h p) b.owner.side (if w.source p = some heap then none else _)
  rw [hhome p (hw.backs.usable_ne_none hp)]
  cases hsource : w.source p with
  | none =>
    rw [hsource] at hsourced
    rw [ite_self]
    split_ifs
    · exact hshared
    · exact hsourced
  | some o =>
    rw [hsource] at hsourced
    obtain ⟨ho, hside⟩ := hsourced
    rw [ho]
    by_cases heq : o = heap
    · rw [if_pos heq, if_pos (congrArg some heq)]
      exact hshared
    · rw [if_neg heq, if_neg fun h => heq (Option.some.inj h)]
      exact ⟨rfl, hside⟩

/-- A destroyed heap that is not shared takes the blocks that its calls made. -/
theorem Heaps.Sound.heapDestroy (hw : w.Sound V) {h : H} {heap : Ptr}
    (hh : V.Destroys w.heap h heap) (hheap : w.shared heap = false) :
    Heaps.Sound V { w with
      heap := h
      ledger := fun p => if w.source p = some heap then none else w.ledger p } := by
  have hentry : ∀ p, V.home w.heap p = heap →
      (if w.source p = some heap then none else w.ledger p) = none := by
    intro p hp
    cases hold : w.ledger p with
    | none => exact ite_self none
    | some b => exact if_pos ((hw.home_eq_iff hold hheap).mp hp)
  have hkept : ∀ p, V.home w.heap p ≠ heap →
      (if w.source p = some heap then none else w.ledger p) = w.ledger p := by
    intro p hp
    cases hold : w.ledger p with
    | none => exact ite_self none
    | some b => exact if_neg fun hsource => hp ((hw.home_eq_iff hold hheap).mpr hsource)
  have hbacks := hw.backs.releaseAll hh.blocks hentry hkept
  refine ⟨hbacks, fun p b hp => ?_, hh.shared_default hw, hw.backing⟩
  have hhome := hh.home p (hbacks.usable_ne_none hp)
  change Sourced w.shared (V.home h p) b.owner.side (w.source p)
  rw [hhome]
  exact hw.sourced p b (Option.ite_none_left_eq_some.mp hp).2

/-- A heap that becomes the default is shared. -/
theorem Heaps.Sound.heapSetDefault [DecidableEq θ] (hw : w.Sound V) {h : H} {k : θ} {heap : Ptr}
    (hh : V.SetsDefault w.heap h k heap) :
    Heaps.Sound V { w with
      heap := h
      shared := Function.update w.shared heap true } := by
  have hshared : ∀ o, w.shared o = true → Function.update w.shared heap true o = true := by
    intro o ho
    by_cases heq : o = heap
    · rw [heq, Function.update_self]
    · rw [Function.update_of_ne heq, ho]
  refine ⟨hw.backs.same hh.same, fun p b hp => ?_, fun j => ?_, fun j => hshared _ (hw.backing j)⟩
  · have hsourced := hw.sourced p b hp
    change Sourced _ (V.home h p) b.owner.side (w.source p)
    rw [hh.home]
    cases hsource : w.source p with
    | none =>
      rw [hsource] at hsourced
      exact hshared _ hsourced
    | some o =>
      rw [hsource] at hsourced
      exact hsourced
  · change Function.update w.shared heap true (V.default h j) = true
    rw [hh.default]
    by_cases hj : j = k
    · rw [hj, Function.update_self, Function.update_self]
    · rw [Function.update_of_ne hj]
      exact hshared _ (hw.default j)

end

/-! ## One event -/

section

variable {H θ : Type*} {V : HeapMemory H θ}

theorem HeapMemory.homed_self (V : HeapMemory H θ) (h : H) (heap : Ptr) : V.Homed h h heap where
  home _ hp := (if_neg hp).symm
  thread := rfl
  default := rfl

/-- The contract of `Mem` is what mimalloc asks for. -/
theorem Mem.Call.given {usizeBits : ℕ} {h : H} {l : Ledger Owner UInt8} {c : Mem.Call}
    (hc : c.Obeys usizeBits l) (hl : Backs V.toView h l) : c.Given V.toView usizeBits h := by
  have hheld : ∀ {p : Ptr}, (∃ b, l p = some b ∧ b.owner = .managed) → V.usable h p ≠ none := by
    rintro p ⟨b, hb, -⟩
    exact hl.usable_ne_none hb
  cases c with
  | realloc | reallocn | reallocf | expand | free => exact hc.imp_right hheld
  | reallocAligned | reallocAlignedAt => exact hheld hc
  | mallocSmall | zallocSmall => exact hc
  | calloc | malloc | zalloc | mallocn | mallocAligned | zallocAligned | mallocAlignedAt
  | zallocAlignedAt | callocAligned | callocAlignedAt => trivial

/-- The contract of `GlobalAlloc` is too. -/
theorem SpreadsMalloc.Call.given {h : H} {l : Ledger Owner UInt8} {c : SpreadsMalloc.Call}
    (hc : c.Obeys l) (hl : Backs V.toView h l) : c.Given V.toView h := by
  cases c with
  | alloc | allocZeroed => trivial
  | dealloc ptr layout =>
    obtain ⟨b, hb, -⟩ := hc
    exact hl.usable_ne_none hb
  | realloc ptr layout newSize =>
    obtain ⟨⟨b, hb, -⟩, -⟩ := hc
    exact hl.usable_ne_none hb

theorem Event.given {target : Target} {w : Process H} {e : Event} (he : e.Obeys target w)
    (hw : Backs V.toView w.heap w.ledger) : e.Given V.toView target w.heap := by
  have hin : ∀ {side : Side} {p : Ptr} {i : ℕ},
      (∃ b, w.ledger p = some b ∧ b.owner.side = side ∧ i < b.size) →
      ∃ n, V.usable w.heap p = some n ∧ i < n := by
    rintro side p i ⟨b, hb, -, hi⟩
    obtain ⟨n, hle, hn, -⟩ := (hw.backedAt p).block b hb
    exact ⟨n, hn, hi.trans_le hle⟩
  cases e with
  | rust c => exact SpreadsMalloc.Call.given he hw
  | managed c => exact Mem.Call.given he hw
  | usableSize p =>
    refine Or.imp_right ?_ he
    rintro ⟨b, hb, -⟩
    exact hw.usable_ne_none hb
  | store side p i x => exact hin he
  | load side p i => exact hin he

/-- A call that is given a heap is an event of a process that has it as default. -/
theorem heaps_step_call (M : θ → HeapApi H) (target : Target) (w : Heaps H) (k : θ) (heap : Ptr)
    (c : Mem.HeapCall) :
    (heaps M V target).step w (k, .call heap c) =
      ([.shown (.returned (c.perform (M k) w.heap heap).1)],
        w.advance ((process ((M k).onHeap heap) V.toMemory target).step w.toProcess
          (.managed c.call)).2 (some heap)) := by
  simp only [heaps, process, c.perform_eq]

variable [DecidableEq θ] {M : θ → HeapApi H} {target : Target}
  (hM : KeepsHeaps M V target.arch.usizeBits)

include hM

/-- Rust allocates from the default heap of its thread. -/
theorem SpreadsMalloc.Call.homed (k : θ) {h : H} {c : SpreadsMalloc.Call}
    (hc : c.Given V.toView h) :
    V.Homed h (c.perform (M k).toMimalloc target h).2 (V.default h k) := by
  have halloc : ∀ {unaligned : H → ℕ → Ptr × H} {aligned : H → ℕ → ℕ → Ptr × H} (layout : Layout),
      (∀ size, V.Homed h (unaligned h size).2 (V.default h k)) →
      (∀ size align, V.Homed h (aligned h size align).2 (V.default h k)) →
      V.Homed h (allocVia unaligned aligned target h layout).2 (V.default h k) := by
    intro unaligned aligned layout hu ha
    unfold allocVia
    split_ifs
    · exact hu layout.size
    · exact V.homed_self h _
    · exact ha layout.size layout.align
  cases c with
  | alloc layout =>
    exact halloc layout (fun size => hM.homed k h (.malloc size) trivial)
      fun size align => hM.homed k h (.mallocAligned size align) trivial
  | allocZeroed layout =>
    exact halloc layout (fun size => hM.homed k h (.zalloc size) trivial)
      fun size align => hM.homed k h (.zallocAligned size align) trivial
  | dealloc ptr layout => exact hM.homed k h (.free ptr) (Or.inr hc)
  | realloc ptr layout newSize =>
    change V.Homed h (SpreadsMalloc.realloc (M k).toMimalloc target h ptr layout newSize).2 _
    unfold SpreadsMalloc.realloc
    split_ifs
    · exact hM.homed k h (.realloc ptr newSize) (Or.inr hc)
    · exact hM.homed k h (.reallocAligned ptr newSize layout.align) hc

/-- A call that is given no heap puts new blocks in the default heap of its thread. -/
theorem process_homed (k : θ) {w : Process H} {e : Event} (he : e.Given V.toView target w.heap) :
    V.Homed w.heap
      ((process (M k).toMimallocApi V.toMemory target).step w e).2.heap (V.default w.heap k) := by
  cases e with
  | rust c => exact SpreadsMalloc.Call.homed hM k he
  | managed c => exact hM.homed k w.heap c he
  | usableSize p => exact V.homed_self w.heap _
  | load side p i => exact V.homed_self w.heap _
  | store side p i b => exact hM.write w.heap (p + i) b _

/-- A call that is given a heap puts new blocks there. -/
theorem Mem.HeapCall.homed {k : θ} {h : H} {heap : Ptr} {c : Mem.HeapCall}
    (hthread : V.thread h heap = some k) (hc : c.call.Given V.toView target.arch.usizeBits h) :
    V.Homed h (c.perform (M k) h heap).2 heap := by
  rw [c.perform_eq]
  exact hM.onHeapHomed k h heap hthread c.call hc

/-- An event under the contract keeps the heap and what is known of it sound, and shows what
agrees with that. -/
theorem heaps_step (w : Heaps H) (e : θ × HeapEvent) (hw : w.Sound V)
    (he : HeapEvent.Obeys V target w e) :
    ((heaps M V target).step w e).2.Sound V ∧
      ∀ s ∈ ((heaps M V target).step w e).1, s.Agrees := by
  obtain ⟨k, e⟩ := e
  cases e with
  | event e =>
    have hblocks := hM.blocks k w.heap
    obtain ⟨hbacks, hagrees⟩ := process_step hblocks e hw.backs he
    have hhomed := process_homed hM k (Event.given he hw.backs)
    refine ⟨hw.advance hbacks hhomed (fun q b b' hb hb' => ?_) fun q b _ _ => hw.default k, ?_⟩
    · exact process_step_side hblocks hw.backs he hb hb'
    · exact List.forall_mem_map.mpr hagrees
  | call heap c =>
    obtain ⟨hthread, hobeys⟩ := he
    have hblocks := hM.onHeapBlocks k w.heap heap hthread
    have hevent : (Event.managed c.call).Obeys target w.toProcess := hobeys
    have hbacks := (process_step hblocks (.managed c.call) hw.backs hevent).1
    have hhomed := hM.onHeapHomed k w.heap heap hthread c.call (Mem.Call.given hobeys hw.backs)
    rw [heaps_step_call]
    refine ⟨hw.advance hbacks hhomed (fun q b b' hb hb' => ?_) fun q b hnone hb => ⟨rfl, ?_⟩,
      List.forall_mem_singleton.mpr trivial⟩
    · exact process_step_side hblocks hw.backs hevent hb hb'
    · exact process_side_of_new hnone hb
  | heapNew => exact ⟨hw.heapNew (hM.heapNew k w.heap), List.forall_mem_singleton.mpr trivial⟩
  | heapDelete heap =>
    obtain ⟨hthread, hne⟩ := he
    exact ⟨hw.heapDelete (hM.heapDelete k w.heap heap hthread hne), fun _ h => absurd h nofun⟩
  | heapDestroy heap =>
    obtain ⟨hthread, hshared⟩ := he
    have hdestroys := hM.heapDestroy k w.heap heap hthread (hw.ne_backing hshared k)
    exact ⟨hw.heapDestroy hdestroys hshared, fun _ h => absurd h nofun⟩
  | heapSetDefault heap =>
    exact ⟨hw.heapSetDefault (hM.heapSetDefault k w.heap heap he),
      List.forall_mem_singleton.mpr trivial⟩
  | heapContainsBlock heap p upper =>
    obtain ⟨hthread, b, hb⟩ := he
    refine ⟨hw, List.forall_mem_singleton.mpr fun x hx => ?_⟩
    obtain ⟨hshared, hx⟩ := Option.ite_none_left_eq_some.mp hx
    obtain rfl := Option.some.inj hx
    have hnative : spreadsMemHeapContainsBlock (M k) w.heap heap p =
        decide (w.source p = some heap) := by
      rw [spreadsMemHeapContainsBlock,
        hM.heapContainsBlock k w.heap heap p hthread (hw.backs.usable_ne_none hb)]
      exact decide_eq_decide.mpr (hw.home_eq_iff hb (Bool.eq_false_of_not_eq_true hshared))
    exact congrArg (readBool · upper) hnative

/-! ## Runs -/

theorem heaps_run {h : H} (hempty : ∀ p, V.usable h p = none) (events : List (θ × HeapEvent))
    (hobeys : (heaps M V target).Admissible (HeapEvent.Obeys V target) events (.start V h)) :
    ((heaps M V target).run events (.start V h)).2.Sound V ∧
      ∀ s ∈ ((heaps M V target).run events (.start V h)).1, s.Agrees :=
  (heaps M V target).run_invariant_of_admissible (heaps_step hM) events _ hobeys
    (Heaps.sound_start hempty)

/-- If managed code destroys no heap that both sides may have blocks in, then in every run, on
any number of threads, mimalloc's blocks are exactly the blocks that the two sides hold, no
two overlap, every byte that is read is the one last written to it, and managed code knows
which blocks its own heaps contain, though a no is read as one only if the upper bytes are
clear. A destroyed heap takes exactly the blocks that its calls made. -/
theorem heaps_backs {h : H} (hempty : ∀ p, V.usable h p = none) (events : List (θ × HeapEvent))
    (hobeys : (heaps M V target).Admissible (HeapEvent.Obeys V target) events (.start V h)) :
    Backs V.toView ((heaps M V target).run events (.start V h)).2.heap
        ((heaps M V target).run events (.start V h)).2.ledger ∧
      ∀ s ∈ ((heaps M V target).run events (.start V h)).1, s.Agrees := by
  obtain ⟨hsound, hagrees⟩ := heaps_run hM hempty events hobeys
  exact ⟨hsound.backs, hagrees⟩

end

theorem dropsHeaps_backs :
    let events := ownHeap ++ dropsHeaps
    Backs ArenaHeap.memory.toView
        ((heaps ArenaHeap.mimalloc ArenaHeap.memory SpreadsMalloc.linuxX64).run events
          (.start ArenaHeap.memory ArenaHeap.start)).2.heap
        ((heaps ArenaHeap.mimalloc ArenaHeap.memory SpreadsMalloc.linuxX64).run events
          (.start ArenaHeap.memory ArenaHeap.start)).2.ledger ∧
      ∀ s ∈ ((heaps ArenaHeap.mimalloc ArenaHeap.memory SpreadsMalloc.linuxX64).run
        events (.start ArenaHeap.memory ArenaHeap.start)).1, s.Agrees :=
  heaps_backs ArenaHeap.keepsHeaps (fun _ => rfl) (ownHeap ++ dropsHeaps) obeys_dropsHeaps

/-! ## The other side -/

section

variable {H θ : Type*} {V : HeapMemory H θ} [DecidableEq θ] {M : θ → HeapApi H} {target : Target}
  (hM : KeepsHeaps M V target.arch.usizeBits)

include hM

/-- An event of one side changes no block of the other. -/
theorem heaps_step_other {w : Heaps H} (hw : w.Sound V) {e : θ × HeapEvent}
    (he : HeapEvent.Obeys V target w e) :
    w.toProcess.Undisturbed V.toMemory e.2.side ((heaps M V target).step w e).2.toProcess := by
  obtain ⟨k, e⟩ := e
  intro p b hp hside
  cases e with
  | event e => exact process_step_other (hM.blocks k w.heap) hw.backs he hp hside
  | call heap c =>
    obtain ⟨hthread, hobeys⟩ := he
    have hevent : (Event.managed c.call).Obeys target w.toProcess := hobeys
    rw [heaps_step_call]
    exact process_step_other (hM.onHeapBlocks k w.heap heap hthread) hw.backs hevent hp hside
  | heapNew => exact ⟨hp, (hM.heapNew k w.heap).same p⟩
  | heapDelete heap =>
    obtain ⟨hthread, hne⟩ := he
    exact ⟨hp, (hM.heapDelete k w.heap heap hthread hne).same p⟩
  | heapDestroy heap =>
    obtain ⟨hthread, hshared⟩ := he
    -- Rust has no block in a heap that is not shared
    have hrust : b.owner.side = .rust := Side.rust_of_ne_managed hside
    have hsource : w.source p ≠ some heap := by
      rw [hw.source_of_rust hp hrust]
      exact nofun
    have hhome := mt (hw.home_eq_iff hp hshared).mp hsource
    have hdestroys := hM.heapDestroy k w.heap heap hthread (hw.ne_backing hshared k)
    exact ⟨(if_neg hsource).trans hp, hdestroys.blocks.others p hhome⟩
  | heapSetDefault heap => exact ⟨hp, (hM.heapSetDefault k w.heap heap he).same p⟩
  | heapContainsBlock heap q upper => exact ⟨hp, rfl, fun _ _ _ _ => rfl⟩

/-- If managed code destroys no heap that both sides may have blocks in, then after any run,
on any number of threads, whatever one side does leaves each block of the other where it is,
with its size and all its bytes. In particular no other heap that managed code drops takes a
block of Rust. -/
theorem heaps_other_side_undisturbed {h : H} (hempty : ∀ p, V.usable h p = none)
    (events events' : List (θ × HeapEvent)) {side : Side}
    (hobeys : (heaps M V target).Admissible (HeapEvent.Obeys V target) events (.start V h))
    (hobeys' : (heaps M V target).Admissible (HeapEvent.Obeys V target) events'
      ((heaps M V target).run events (.start V h)).2)
    (hside : ∀ e ∈ events', e.2.side = side) :
    let w := ((heaps M V target).run events (.start V h)).2
    w.toProcess.Undisturbed V.toMemory side ((heaps M V target).run events' w).2.toProcess := by
  have hw := (heaps_run hM hempty events hobeys).1
  have hstep : ∀ (w : Heaps H) (e : θ × HeapEvent), w.Sound V →
      HeapEvent.Obeys V target w e ∧ e.2.side = side →
      ((heaps M V target).step w e).2.Sound V ∧
        w.toProcess.Undisturbed V.toMemory side ((heaps M V target).step w e).2.toProcess := by
    rintro w e hw ⟨he, rfl⟩
    exact ⟨(heaps_step hM w e hw he).1, heaps_step_other hM hw he⟩
  exact (heaps M V target).run_rel_of_admissible
    (R := fun w w' => w.toProcess.Undisturbed V.toMemory side w'.toProcess)
    (fun w => Process.Undisturbed.refl side w.toProcess) Process.Undisturbed.trans hstep events' _
    (hobeys'.and_forall hside) hw

end

/-- Rust's block is where it was, with its zeros, after managed code has destroyed its heap. -/
theorem dropsHeap_undisturbed :
    let w := ((heaps ArenaHeap.mimalloc ArenaHeap.memory SpreadsMalloc.linuxX64).run
      ownHeap (.start ArenaHeap.memory ArenaHeap.start)).2
    w.toProcess.Undisturbed ArenaHeap.memory.toMemory .managed
      ((heaps ArenaHeap.mimalloc ArenaHeap.memory SpreadsMalloc.linuxX64).run
        [(0, .heapDestroy 2)] w).2.toProcess :=
  heaps_other_side_undisturbed ArenaHeap.keepsHeaps (fun _ => rfl) ownHeap [(0, .heapDestroy 2)]
    obeys_ownHeap ⟨⟨rfl, rfl⟩, trivial⟩ (by simp [HeapEvent.side])

/-! ## Default heaps -/

/-- The default heap of a thread, `d` before it, after an event on this thread. -/
def HeapEvent.defaultAfter (backing d : Ptr) : HeapEvent → Ptr
  | .heapSetDefault heap => heap
  | .heapDelete heap | .heapDestroy heap => if d = heap then backing else d
  | .event _ | .call _ _ | .heapNew | .heapContainsBlock _ _ _ => d

section

variable {H θ : Type*} {V : HeapMemory H θ} [DecidableEq θ] {M : θ → HeapApi H} {target : Target}
  (hM : KeepsHeaps M V target.arch.usizeBits)

include hM

/-- Only the events of a thread change its default heap. -/
theorem heaps_step_default {w : Heaps H} {e : θ × HeapEvent} (he : HeapEvent.Given V target w e)
    (k : θ) :
    V.default ((heaps M V target).step w e).2.heap k =
      if e.1 = k then e.2.defaultAfter (V.backing k) (V.default w.heap k)
      else V.default w.heap k := by
  obtain ⟨j, e⟩ := e
  -- a heap that another thread drops is no default heap of this one
  have hdrops : ∀ {h : H} {heap : Ptr}, V.thread w.heap heap = some j → V.Drops w.heap h heap →
      V.default h k = if j = k then if V.default w.heap k = heap then V.backing k
        else V.default w.heap k else V.default w.heap k := by
    intro h heap hthread hh
    rw [hh.default]
    by_cases hj : j = k
    · rw [if_pos hj]
    · rw [if_neg hj, if_neg]
      rintro rfl
      exact hj (Option.some.inj (hthread.symm.trans (V.default_eq_some w.heap k)))
  cases e with
  | event e => exact (congrFun (process_homed hM j he).default k).trans (ite_self _).symm
  | call heap c =>
    obtain ⟨hthread, hgiven⟩ := he
    exact (congrFun (c.homed hM hthread hgiven).default k).trans (ite_self _).symm
  | heapNew => exact (congrFun (hM.heapNew j w.heap).default k).trans (ite_self _).symm
  | heapDelete heap =>
    obtain ⟨hthread, hne⟩ := he
    exact hdrops hthread (hM.heapDelete j w.heap heap hthread hne).toDrops
  | heapDestroy heap =>
    obtain ⟨hthread, hne⟩ := he
    exact hdrops hthread (hM.heapDestroy j w.heap heap hthread hne).toDrops
  | heapSetDefault heap =>
    refine (congrFun (hM.heapSetDefault j w.heap heap he).default k).trans ?_
    by_cases hj : j = k
    · rw [hj, Function.update_self]
      exact (if_pos rfl).symm
    · rw [Function.update_of_ne (Ne.symm hj)]
      exact (if_neg hj).symm
  | heapContainsBlock heap p upper => exact (ite_self _).symm

/-- What `HeapGetDefault` answers on a thread after any run, and what `HeapSetDefault` returns
there, is what this thread's own events make of its default heap at the start : the heap it
has set last, until it deletes or destroys that heap, then its backing heap. -/
theorem heapGetDefault_run {h : H} (events : List (θ × HeapEvent)) (k : θ)
    (hgiven : (heaps M V target).Admissible (HeapEvent.Given V target) events (.start V h)) :
    let w := ((heaps M V target).run events (.start V h)).2
    let d := (ofKey k events).foldl (HeapEvent.defaultAfter (spreadsMemHeapGetBacking (M k) h))
      (spreadsMemHeapGetDefault (M k) h)
    spreadsMemHeapGetDefault (M k) w.heap = d ∧
      ∀ heap, V.thread w.heap heap = some k →
        (spreadsMemHeapSetDefault (M k) w.heap heap).1 = d := by
  intro w d
  have hrun : V.default w.heap k =
      (ofKey k events).foldl (HeapEvent.defaultAfter (V.backing k)) (V.default h k) := by
    refine Machine.foldl_ofKey_of_admissible (f := fun w : Heaps H => V.default w.heap k) k
      (fun w e he => ?_) (fun w e hne he => ?_) events _ hgiven
    · exact (heaps_step_default hM he k).trans (if_pos rfl)
    · exact (heaps_step_default hM he k).trans (if_neg hne)
  have hd : d = V.default w.heap k := by
    rw [hrun, ← hM.heapGetBacking k h, ← hM.heapGetDefault k h]
    rfl
  rw [hd]
  exact ⟨hM.heapGetDefault k w.heap, fun heap => hM.heapSetDefaultOld k w.heap heap⟩

end

/-- Thread 1 destroys its default heap, in which Rust has a block, and thread 0 has set its. -/
def destroysDefault : List (ℕ × HeapEvent) :=
  madeDefault ++ [(1, .event (.rust (.allocZeroed thirtyTwoBytes))), (0, .heapNew),
    (0, .heapSetDefault 4), (1, .heapDestroy 2)]

theorem given_destroysDefault :
    (heaps ArenaHeap.mimalloc ArenaHeap.memory SpreadsMalloc.linuxX64).Admissible
      (HeapEvent.Given ArenaHeap.memory SpreadsMalloc.linuxX64) destroysDefault
      (.start ArenaHeap.memory ArenaHeap.start) :=
  ⟨trivial, rfl, trivial, trivial, rfl, ⟨rfl, by decide⟩, trivial⟩

/-- Thread 1 is back at its backing heap. -/
theorem destroysDefault_getDefault :
    let w := ((heaps ArenaHeap.mimalloc ArenaHeap.memory SpreadsMalloc.linuxX64).run
      destroysDefault (.start ArenaHeap.memory ArenaHeap.start)).2
    spreadsMemHeapGetDefault (ArenaHeap.mimalloc 1) w.heap = 3 ∧
      ∀ heap, ArenaHeap.memory.thread w.heap heap = some 1 →
        (spreadsMemHeapSetDefault (ArenaHeap.mimalloc 1) w.heap heap).1 = 3 :=
  heapGetDefault_run ArenaHeap.keepsHeaps destroysDefault 1 given_destroysDefault

/-! ## A destroyed default heap -/

section

variable {H θ : Type*} {V : HeapMemory H θ} [DecidableEq θ] {M : θ → HeapApi H} {target : Target}
  (hM : KeepsHeaps M V target.arch.usizeBits)

include hM

/-- Rust's block `b` at `p` is in `heap`, which thread `k` made. -/
structure Heaps.Exposed (V : HeapMemory H θ) (k : θ) (heap p : Ptr) (b : Block Owner UInt8)
    (w : Heaps H) : Prop where
  held : w.ledger p = some b
  side : b.owner.side = .rust
  home : V.home w.heap p = heap
  thread : V.thread w.heap heap = some k

/-- It stays there, whatever managed code does, unless it drops this heap. -/
theorem Heaps.Exposed.step {w : Heaps H} (hw : w.Sound V) {k : θ} {heap p : Ptr}
    {b : Block Owner UInt8} (hp : w.Exposed V k heap p b) {e : θ × HeapEvent}
    (he : HeapEvent.Obeys V target w e) (hside : e.2.side = .managed)
    (hkept : e.2 ≠ .heapDelete heap) : ((heaps M V target).step w e).2.Exposed V k heap p b := by
  have hmanaged : b.owner.side ≠ e.2.side := by
    rw [hp.side, hside]
    exact nofun
  have hheld := (heaps_step_other hM hw he p b hp.held hmanaged).1
  have hused := hw.backs.usable_ne_none hp.held
  have hused' := (heaps_step hM w e hw he).1.backs.usable_ne_none hheld
  suffices hheap : V.home ((heaps M V target).step w e).2.heap p = V.home w.heap p ∧
      V.thread ((heaps M V target).step w e).2.heap heap = V.thread w.heap heap from
    ⟨hheld, hp.side, hheap.1.trans hp.home, hheap.2.trans hp.thread⟩
  have hhomed : ∀ {h : H} {o : Ptr}, V.Homed w.heap h o → V.usable h p ≠ none →
      V.home h p = V.home w.heap p ∧ V.thread h heap = V.thread w.heap heap :=
    fun hh hp => ⟨(hh.home p hp).trans (if_neg hused), congrFun hh.thread heap⟩
  obtain ⟨j, e⟩ := e
  cases e with
  | event e => exact hhomed (process_homed hM j (Event.given he hw.backs)) hused'
  | call o c =>
    obtain ⟨hthread, hobeys⟩ := he
    exact hhomed (c.homed hM hthread (Mem.Call.given hobeys hw.backs)) hused'
  | heapNew =>
    have hmakes := hM.heapNew j w.heap
    refine ⟨hmakes.home p hused, (congrFun hmakes.thread heap).trans ?_⟩
    split_ifs with hnull
    · rfl
    · -- the new heap was not there before
      refine Function.update_of_ne (fun heq => ?_) _ _
      have hfresh := hmakes.fresh hnull
      rw [← heq, hp.thread] at hfresh
      exact absurd hfresh nofun
  | heapDelete o =>
    obtain ⟨hthread, hne⟩ := he
    have hdeletes := hM.heapDelete j w.heap o hthread hne
    have ho : heap ≠ o := fun heq => hkept (by rw [heq])
    obtain ⟨heir, -, hhome⟩ := hdeletes.home
    refine ⟨(hhome p hused).trans (if_neg ?_), ?_⟩
    · rw [hp.home]
      exact ho
    · exact (congrFun hdeletes.thread heap).trans (Function.update_of_ne ho _ _)
  | heapDestroy o =>
    obtain ⟨hthread, hshared⟩ := he
    have hdestroys := hM.heapDestroy j w.heap o hthread (hw.ne_backing hshared j)
    refine ⟨hdestroys.home p hused', (congrFun hdestroys.thread heap).trans ?_⟩
    -- the block would be gone with the heap
    refine Function.update_of_ne (fun heq => hused' (hdestroys.blocks.gone p ?_)) _ _
    exact hp.home.trans heq
  | heapSetDefault o =>
    have hsets := hM.heapSetDefault j w.heap o he
    exact ⟨congrFun hsets.home p, congrFun hsets.thread heap⟩
  | heapContainsBlock o q upper => exact ⟨rfl, rfl⟩

/-- Without that condition Rust loses its blocks. After any run that keeps to it, if the default
heap of thread `k` is one that managed code made, each block that a call of Rust makes on this
thread is in it. Whatever managed code does then, short of deleting this heap, Rust still
holds the block, and destroying the heap takes it. -/
theorem destroyed_default_takes_blocks {h : H} (hempty : ∀ p, V.usable h p = none)
    (events events' : List (θ × HeapEvent)) (k : θ) (c : SpreadsMalloc.Call) (heap : Ptr)
    (hobeys : (heaps M V target).Admissible (HeapEvent.Obeys V target)
      (events ++ (k, .event (.rust c)) :: events') (.start V h))
    (hdefault : V.default ((heaps M V target).run events (.start V h)).2.heap k = heap)
    (hmade : heap ≠ V.backing k)
    (hmanaged : ∀ e ∈ events', e.2.side = .managed ∧ e.2 ≠ .heapDelete heap) :
    let w := ((heaps M V target).run events (.start V h)).2
    let w₁ := ((heaps M V target).step w (k, .event (.rust c))).2
    let w' := ((heaps M V target).run events' w₁).2
    ∀ p b, w.ledger p = none → w₁.ledger p = some b →
      V.home w₁.heap p = heap ∧ w'.ledger p = some b ∧
        V.usable (spreadsMemHeapDestroy (M k) w'.heap heap) p = none := by
  intro w w₁ w' p b hnone hp
  obtain ⟨hevents, he, hevents'⟩ := Machine.admissible_append.mp hobeys
  have hw : w.Sound V := (heaps_run hM hempty events hevents).1
  have hw₁ : w₁.Sound V := (heaps_step hM w _ hw he).1
  have hrust : (Event.rust c).Obeys target w.toProcess := he
  have hhomed := process_homed hM k (Event.given hrust hw.backs)
  have hexposed : w₁.Exposed V k heap p b := by
    refine ⟨hp, ?_, ?_, ?_⟩
    · exact process_side_of_new (M := (M k).toMimallocApi) (V := V.toMemory) (w := w.toProcess)
        (e := .rust c) hnone hp
    · have hhome := hhomed.home p (hw₁.backs.usable_ne_none hp)
      rw [if_pos (hw.backs.usable_eq_none hnone)] at hhome
      exact hhome.trans hdefault
    · rw [← hdefault]
      exact (congrFun hhomed.thread _).trans (V.default_eq_some w.heap k)
  have hstep : ∀ (w : Heaps H) (e : θ × HeapEvent),
      w.Sound V ∧ w.Exposed V k heap p b →
      HeapEvent.Obeys V target w e ∧ e.2.side = .managed ∧ e.2 ≠ .heapDelete heap →
      (((heaps M V target).step w e).2.Sound V ∧
        ((heaps M V target).step w e).2.Exposed V k heap p b) ∧
          ∀ s ∈ ((heaps M V target).step w e).1, s.Agrees := by
    rintro w e ⟨hw, hexposed⟩ ⟨he, hside, hkept⟩
    obtain ⟨hw', hagrees⟩ := heaps_step hM w e hw he
    exact ⟨⟨hw', hexposed.step hM hw he hside hkept⟩, hagrees⟩
  obtain ⟨⟨-, hend⟩, -⟩ := (heaps M V target).run_invariant_of_admissible hstep events' w₁
    (hevents'.and_forall hmanaged) ⟨hw₁, hexposed⟩
  have hdestroys := hM.heapDestroy k w'.heap heap hend.thread hmade
  exact ⟨hexposed.home, hend.held, hdestroys.blocks.gone p hend.home⟩

end

/-- The block that Rust gets from heap 2 is gone with it, whatever heaps were used before. -/
theorem madeDefault_takes_block :
    let w := ((heaps ArenaHeap.mimalloc ArenaHeap.memory SpreadsMalloc.linuxX64).run madeDefault
      (.start ArenaHeap.memory ArenaHeap.start)).2
    let w₁ := ((heaps ArenaHeap.mimalloc ArenaHeap.memory SpreadsMalloc.linuxX64).step w
      (1, .event (.rust (.allocZeroed thirtyTwoBytes)))).2
    let w' := ((heaps ArenaHeap.mimalloc ArenaHeap.memory SpreadsMalloc.linuxX64).run usesHeaps
      w₁).2
    ArenaHeap.memory.home w₁.heap 4096 = 2 ∧
      w'.ledger 4096 = some ⟨.rust thirtyTwoBytes, 32, fun _ => some 0⟩ ∧
      ArenaHeap.memory.usable (spreadsMemHeapDestroy (ArenaHeap.mimalloc 1) w'.heap 2) 4096 =
        none :=
  destroyed_default_takes_blocks ArenaHeap.keepsHeaps (fun _ => rfl) madeDefault usesHeaps 1
    (.allocZeroed thirtyTwoBytes) 2 obeys_madeDefault rfl (by decide)
    (by simp [usesHeaps, HeapEvent.side]) 4096 _ rfl rfl

end SpreadsNative
