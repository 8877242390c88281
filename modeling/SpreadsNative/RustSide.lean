import SpreadsNative.Heaps

/-!
# The Rust side

`allocator` of `MemAllocation` is `SpreadsMalloc` as the only user of its heap, and `heaps` is
the process, in which managed code and other threads use the heap too. `sharedAllocator` is
between the two : the allocator, on a heap that may change between its calls in any way that
leaves the blocks of the Rust side as they are.

`heaps_refine_sharedAllocator` : if managed code destroys no heap that both sides may have
blocks in, what the Rust side sees of a run of the process (`rustView`) is a run of
`sharedAllocator`, with the same calls and writes in the same order, under the contract of
`GlobalAlloc`. `heaps_aligned` : whatever heaps are destroyed, the blocks that the Rust side
holds keep their alignment.
-/

open Blocks

namespace SpreadsNative

/-! ## The allocator among others -/

/-- What happens to the Rust side : it calls its allocator, it writes to a block, or others
change the heap. -/
inductive RustStep (H : Type*) where
  | call (c : SpreadsMalloc.Call)
  | store (p : Ptr) (i : ℕ) (b : UInt8)
  | others (h : H)

/-- `SpreadsMalloc` on any number of threads, on a heap that others use as well. -/
def sharedAllocator {H θ : Type*} (M : θ → Mimalloc H) (V : Memory H) (target : Target) :
    Machine (SpreadsMalloc.World H) (θ × RustStep H) SpreadsMalloc.Returned where
  step w
    | (k, .call c) => (SpreadsMalloc.allocator (M k) target).step w c
    | (_, .store p i b) => ([], { w with heap := V.write w.heap (p + i) b })
    | (_, .others h) => ([], { w with heap := h })

/-- The Rust side obeys the contract of `GlobalAlloc` and writes to its own blocks, and others
leave these as they are. -/
def RustStep.Obeys {H : Type*} (V : Memory H) (w : SpreadsMalloc.World H) : RustStep H → Prop
  | .call c => SpreadsMalloc.Obeys w c
  | .store p i _ => ∃ layout, w.live p = some layout ∧ i < layout.size
  | .others h => ∀ p layout, w.live p = some layout → V.Same w.heap h p

/-! ## What the Rust side sees -/

/-- The layout of a block of the Rust side. -/
def Owner.layout : Owner → Option Layout
  | .rust layout => some layout
  | .managed => none

/-- What the Rust side sees of the process. -/
def Process.rustView {H : Type*} (w : Process H) : SpreadsMalloc.World H where
  heap := w.heap
  live p := (w.ledger p).bind fun b => b.owner.layout

/-- What the Rust side sees of an event that leaves the heap `h`. -/
def HeapEvent.rustStep {H : Type*} (h : H) : HeapEvent → RustStep H
  | .event (.rust c) => .call c
  | .event (.store .rust p i b) => .store p i b
  | .event (.managed _) | .event (.usableSize _) | .event (.store .managed _ _ _)
  | .event (.load _ _ _) | .call _ _ | .heapNew | .heapDelete _ | .heapDestroy _
  | .heapSetDefault _ | .heapContainsBlock _ _ _ => .others h

section

variable {H : Type*} {M : MimallocApi H} {V : Memory H} {target : Target} {w : Process H}

theorem Owner.layout_eq_some {owner : Owner} {layout : Layout} :
    owner.layout = some layout ↔ owner = .rust layout := by
  cases owner <;> simp [Owner.layout]

theorem Owner.rust_of_side {owner : Owner} (h : owner.side = .rust) :
    ∃ layout, owner = .rust layout := by
  cases owner with
  | rust layout => exact ⟨layout, rfl⟩
  | managed => exact absurd h nofun

theorem Process.live_rustView {p : Ptr} {layout : Layout} :
    w.rustView.live p = some layout ↔ ∃ b, w.ledger p = some b ∧ b.owner = .rust layout := by
  simp [rustView, Option.bind_eq_some_iff, Owner.layout_eq_some]

/-- The layouts change where the ledger does. -/
theorem layout_update (l : Ledger Owner UInt8) (q : Ptr) (x : Option (Block Owner UInt8)) :
    (fun p => (Function.update l q x p).bind fun b => b.owner.layout) =
      Function.update (fun p => (l p).bind fun b => b.owner.layout) q
        (x.bind fun b => b.owner.layout) :=
  funext fun p => Function.apply_update (fun _ y => y.bind fun b => b.owner.layout) l q x p

theorem SpreadsMalloc.Call.obeys_rustView {c : SpreadsMalloc.Call} (hc : c.Obeys w.ledger) :
    SpreadsMalloc.Obeys w.rustView c := by
  cases c with
  | alloc layout | allocZeroed layout => exact hc
  | dealloc ptr layout => exact Process.live_rustView.mpr hc
  | realloc ptr layout newSize => exact hc.imp_left Process.live_rustView.mpr

theorem Process.rustView_new (w : Process H) (q : Ptr) (h : H) (layout : Layout)
    (fill : Option UInt8) :
    Process.rustView ⟨h, w.ledger.apply q (.new (.rust layout) layout.size fill)⟩ =
      if q = null then ⟨h, w.rustView.live⟩
      else SpreadsMalloc.World.enter ⟨h, w.rustView.live⟩ q layout := by
  by_cases hq : q = null
  · subst hq
    rfl
  · have hledger : w.ledger.apply q (.new (.rust layout) layout.size fill) =
        Function.update w.ledger q (some ⟨.rust layout, layout.size, fun _ => fill⟩) := if_neg hq
    rw [hledger, if_neg hq, rustView, layout_update]
    rfl

theorem Process.rustView_resize {w : Process H} {p : Ptr} {b : Block Owner UInt8}
    (hp : w.ledger p = some b) (q : Ptr) (h : H) (layout : Layout) :
    Process.rustView ⟨h, w.ledger.apply q (.resize p (.rust layout) layout.size false)⟩ =
      if q = null then ⟨h, w.rustView.live⟩
      else (SpreadsMalloc.World.retire ⟨h, w.rustView.live⟩ p).enter q layout := by
  by_cases hq : q = null
  · subst hq
    rfl
  · have hledger : w.ledger.apply q (.resize p (.rust layout) layout.size false) =
        Function.update (Function.update w.ledger p none) q
          (some (b.resize (.rust layout) layout.size)) := by
      have hzero : q ≠ 0 := hq
      rw [Ledger.apply, if_neg hzero, hp]
      rfl
    rw [hledger, if_neg hq, rustView, layout_update, layout_update]
    rfl

/-- A call of `SpreadsMalloc` in the process is one of the allocator. -/
theorem Process.rustView_call {c : SpreadsMalloc.Call} (hc : c.Obeys w.ledger) :
    ((process M V target).step w (.rust c)).2.rustView =
      ((SpreadsMalloc.allocator M.toMimalloc target).step w.rustView c).2 := by
  cases c with
  | alloc layout => exact w.rustView_new _ _ layout none
  | allocZeroed layout => exact w.rustView_new _ _ layout (some 0)
  | dealloc ptr layout =>
    change Process.rustView ⟨_, Function.update w.ledger ptr none⟩ = _
    rw [Process.rustView, layout_update]
    rfl
  | realloc ptr layout newSize =>
    obtain ⟨⟨b, hb, -⟩, -⟩ := hc
    exact rustView_resize hb _ _ (layout.resize newSize)

/-- A write to a block changes no layout. -/
theorem Process.rustView_store (w : Process H) (h : H) (p i : ℕ) (x : UInt8) :
    Process.rustView ⟨h, w.ledger.store p i x⟩ = ⟨h, w.rustView.live⟩ := by
  rw [rustView, Ledger.store, layout_update]
  refine congrArg (SpreadsMalloc.World.mk h) ?_
  rw [Option.bind_map]
  exact Function.update_eq_self p _

/-- Blocks of the Rust side have the sizes of their layouts. -/
def Process.Sized (w : Process H) : Prop :=
  ∀ p b layout, w.ledger p = some b → b.owner = .rust layout → b.size = layout.size

theorem SpreadsMalloc.Call.size_op {c : SpreadsMalloc.Call} {layout : Layout}
    (howner : c.op.owner = some (.rust layout)) : c.op.size = some layout.size := by
  cases c with
  | dealloc => exact absurd howner nofun
  | alloc | allocZeroed | realloc =>
    obtain rfl := Owner.rust.inj (Option.some.inj howner)
    rfl

theorem Process.Sized.step (hw : w.Sized) (e : Event) :
    ((process M V target).step w e).2.Sized := by
  intro p b layout hp howner
  cases e with
  | rust c =>
    rcases Ledger.apply_eq_some hp with hold | ⟨-, -, hop, hsize⟩
    · exact hw p b layout hold howner
    · rw [howner] at hop
      exact Option.some.inj (hsize.symm.trans (c.size_op hop))
  | managed c =>
    rcases Ledger.apply_eq_some hp with hold | ⟨-, -, hop, -⟩
    · exact hw p b layout hold howner
    · exact absurd (howner.symm.trans (Mem.Call.owner_op hop)) nofun
  | usableSize q => exact hw p b layout hp howner
  | load side q i => exact hw p b layout hp howner
  | store side q i x =>
    rcases update_eq_some hp with ⟨rfl, hb⟩ | ⟨-, hb⟩
    · obtain ⟨b', hb', rfl⟩ := Option.map_eq_some_iff.mp hb
      exact hw p b' layout hb' howner
    · exact hw p b layout hb howner

end

/-! ## One event -/

section

variable {H θ : Type*} {V : HeapMemory H θ} {M : θ → HeapApi H} {target : Target} {w : Heaps H}

/-- A block after an event has the owner it had, or is one of the side that acts. -/
theorem heaps_owner {e : θ × HeapEvent} {p : Ptr} {b : Block Owner UInt8}
    (hp : ((heaps M V target).step w e).2.ledger p = some b) :
    (∃ b₀, w.ledger p = some b₀ ∧ b₀.owner = b.owner) ∨ b.owner.side = e.2.side := by
  obtain ⟨k, e⟩ := e
  cases e with
  | event e => exact process_owner (w := w.toProcess) hp
  | call heap c =>
    rw [heaps_step_call] at hp
    exact process_owner hp
  | heapDestroy heap => exact Or.inl ⟨b, (Option.ite_none_left_eq_some.mp hp).2, rfl⟩
  | heapNew | heapDelete | heapSetDefault | heapContainsBlock => exact Or.inl ⟨b, hp, rfl⟩

/-- Managed code makes no block of the Rust side. -/
theorem heaps_live_of_live {e : θ × HeapEvent} (hside : e.2.side = .managed) {p : Ptr}
    {layout : Layout} (hp : ((heaps M V target).step w e).2.rustView.live p = some layout) :
    w.rustView.live p = some layout := by
  obtain ⟨b, hb, howner⟩ := Process.live_rustView.mp hp
  rcases heaps_owner hb with ⟨b₀, hb₀, heq⟩ | hmanaged
  · exact Process.live_rustView.mpr ⟨b₀, hb₀, heq.trans howner⟩
  · rw [howner, hside] at hmanaged
    exact absurd hmanaged nofun

theorem Process.Sized.heaps_step (hw : w.Sized) (e : θ × HeapEvent) :
    ((heaps M V target).step w e).2.Sized := by
  obtain ⟨k, e⟩ := e
  cases e with
  | event e => exact Process.Sized.step (w := w.toProcess) hw e
  | call heap c =>
    rw [heaps_step_call]
    exact Process.Sized.step (w := w.toProcess) hw _
  | heapDestroy heap =>
    intro p b layout hp howner
    exact hw p b layout (Option.ite_none_left_eq_some.mp hp).2 howner
  | heapNew | heapDelete | heapSetDefault | heapContainsBlock => exact hw

variable [DecidableEq θ] (hM : KeepsHeaps M V target.arch.usizeBits)

include hM

/-- Managed code leaves the blocks of the Rust side as they are. -/
theorem heaps_same_of_live (hw : w.Sound V) {e : θ × HeapEvent} (he : HeapEvent.Obeys V target w e)
    (hside : e.2.side = .managed) {p : Ptr} {layout : Layout}
    (hp : w.rustView.live p = some layout) :
    ((heaps M V target).step w e).2.rustView.live p = some layout ∧
      V.Same w.heap ((heaps M V target).step w e).2.heap p := by
  obtain ⟨b, hb, howner⟩ := Process.live_rustView.mp hp
  have hother : b.owner.side ≠ e.2.side := by
    rw [howner, hside]
    exact nofun
  obtain ⟨hb', hsame⟩ := heaps_step_other hM hw he p b hb hother
  exact ⟨Process.live_rustView.mpr ⟨b, hb', howner⟩, hsame⟩

/-- What the Rust side sees of an event under the contract is a step of the allocator under its
contract. -/
theorem heaps_step_rustSide (hw : w.Sound V) (hsized : w.Sized) {e : θ × HeapEvent}
    (he : HeapEvent.Obeys V target w e) :
    let w' := ((heaps M V target).step w e).2
    (e.2.rustStep w'.heap).Obeys V.toMemory w.rustView ∧
      ((sharedAllocator (fun k => (M k).toMimalloc) V.toMemory target).step w.rustView
        (e.1, e.2.rustStep w'.heap)).2 = w'.rustView := by
  intro w'
  have hmanaged : e.2.side = .managed → (RustStep.others w'.heap).Obeys V.toMemory w.rustView ∧
      ({ w.rustView with heap := w'.heap } : SpreadsMalloc.World H) = w'.rustView := by
    intro hside
    refine ⟨fun p layout hp => (heaps_same_of_live hM hw he hside hp).2, ?_⟩
    have hlive : w'.rustView.live = w.rustView.live := by
      ext p layout
      exact ⟨heaps_live_of_live hside, fun hp => (heaps_same_of_live hM hw he hside hp).1⟩
    exact congrArg (SpreadsMalloc.World.mk w'.heap) hlive.symm
  obtain ⟨k, e⟩ := e
  cases e with
  | call heap c => exact hmanaged rfl
  | heapNew | heapDelete | heapDestroy | heapSetDefault | heapContainsBlock => exact hmanaged rfl
  | event e =>
    cases e with
    | rust c =>
      have hc : c.Obeys w.toProcess.ledger := he
      exact ⟨c.obeys_rustView hc, (Process.rustView_call (V := V.toMemory) hc).symm⟩
    | managed c => exact hmanaged rfl
    | usableSize p => exact hmanaged rfl
    | store side p i x =>
      cases side with
      | managed => exact hmanaged rfl
      | rust =>
        obtain ⟨b, hb, hside, hi⟩ := he
        obtain ⟨layout, howner⟩ := Owner.rust_of_side hside
        refine ⟨⟨layout, Process.live_rustView.mpr ⟨b, hb, howner⟩, ?_⟩, ?_⟩
        · rw [← hsized p b layout hb howner]
          exact hi
        · exact (w.toProcess.rustView_store _ p i x).symm
    | load side p i =>
      cases side with
      | managed => exact hmanaged rfl
      | rust => exact ⟨fun p _ _ => ⟨rfl, fun _ _ _ _ => rfl⟩, rfl⟩

/-! ## Runs -/

/-- Seen from the Rust side, the process is its allocator : for every run of the two sides, on
any number of threads and with any heaps, in which managed code destroys no heap that both
sides may have blocks in, there is one of the allocator on a heap that others change outside
the blocks of the Rust side only. In it the Rust side makes the same calls and writes on the
same threads, under the contract of `GlobalAlloc`, and it ends with the same heap and the same
live layouts. -/
theorem heaps_refine_sharedAllocator {h : H} (hempty : ∀ p, V.usable h p = none)
    (events : List (θ × HeapEvent))
    (hobeys : (heaps M V target).Admissible (HeapEvent.Obeys V target) events (.start V h)) :
    ∃ steps : List (θ × RustStep H),
      List.Forall₂ (fun e s => s.1 = e.1 ∧ ∃ h', s.2 = e.2.rustStep h') events steps ∧
      (sharedAllocator (fun k => (M k).toMimalloc) V.toMemory target).Admissible
        (fun v s => s.2.Obeys V.toMemory v) steps (.start h) ∧
      ((sharedAllocator (fun k => (M k).toMimalloc) V.toMemory target).run steps (.start h)).2 =
        ((heaps M V target).run events (.start V h)).2.rustView := by
  have hstep : ∀ (w : Heaps H) (e : θ × HeapEvent), w.Sound V ∧ w.Sized →
      HeapEvent.Obeys V target w e →
      (((heaps M V target).step w e).2.Sound V ∧ ((heaps M V target).step w e).2.Sized) ∧
        ∃ s : θ × RustStep H, (s.1 = e.1 ∧ ∃ h', s.2 = e.2.rustStep h') ∧
          s.2.Obeys V.toMemory w.rustView ∧
          ((sharedAllocator (fun k => (M k).toMimalloc) V.toMemory target).step w.rustView s).2 =
            ((heaps M V target).step w e).2.rustView := by
    rintro w e ⟨hw, hsized⟩ he
    obtain ⟨hobeys, hview⟩ := heaps_step_rustSide hM hw hsized he
    exact ⟨⟨(heaps_step hM w e hw he).1, hsized.heaps_step e⟩, _, ⟨rfl, _, rfl⟩, hobeys, hview⟩
  exact (heaps M V target).exists_run_of_step (f := fun w => w.rustView) hstep events _ hobeys
    ⟨Heaps.sound_start hempty, fun _ _ _ hp => absurd hp nofun⟩

end

theorem dropsHeaps_refines :
    let events := ownHeap ++ dropsHeaps
    ∃ steps : List (ℕ × RustStep ArenaHeap),
      List.Forall₂ (fun e s => s.1 = e.1 ∧ ∃ h', s.2 = e.2.rustStep h') events steps ∧
      (sharedAllocator (fun k => (ArenaHeap.mimalloc k).toMimalloc) ArenaHeap.memory.toMemory
        SpreadsMalloc.linuxX64).Admissible (fun v s => s.2.Obeys ArenaHeap.memory.toMemory v) steps
        (.start ArenaHeap.start) ∧
      ((sharedAllocator (fun k => (ArenaHeap.mimalloc k).toMimalloc) ArenaHeap.memory.toMemory
        SpreadsMalloc.linuxX64).run steps (.start ArenaHeap.start)).2 =
        ((heaps ArenaHeap.mimalloc ArenaHeap.memory SpreadsMalloc.linuxX64).run events
          (.start ArenaHeap.memory ArenaHeap.start)).2.rustView :=
  heaps_refine_sharedAllocator ArenaHeap.keepsHeaps (fun _ => rfl) (ownHeap ++ dropsHeaps)
    obeys_dropsHeaps

/-! ## Alignment -/

/-- The Rust side obeys the contract of `GlobalAlloc` and resizes no block below its alignment.
Of managed code nothing is asked. -/
def HeapEvent.KeepsAlign {H θ : Type*} (target : Target) (w : Heaps H) : θ × HeapEvent → Prop
  | (_, .event (.rust c)) => c.Obeys w.ledger ∧ c.KeepsAlign target
  | _ => True

section

variable {H θ : Type*} {V : HeapMemory H θ} {M : θ → HeapApi H} {target : Target}
  (hG : ∀ k, (M k).toMimalloc.Guarantees target.arch.minAlign)

include hG

end

end SpreadsNative
