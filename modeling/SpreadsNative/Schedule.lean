import SpreadsNative.Staleness
import SpreadsNative.Fallback
import Mathlib.Algebra.BigOperators.Ring.List

/-!
# Threads that are moved

`Env.pal` lists a thread's native answers by number. Here an answer comes from the
processor that the thread runs on, and the system moves the thread between any two of its
calls (`scheduled`). A cached id then outlives the stay on its processor.

`scheduled_age` : every id that is shown is the one of a processor that the thread was on
at most 100 gets ago. `scheduled_barrier` : after a flush only the next get may show an id
from before it. `scheduled_stale_le` : a move costs at most 100 gets that show another id
than the one of the processor they are made on, and at most one if the thread flushes after
each move. That is an amortised bound, with the gets that the cache may still get wrong
(`debt`) as the potential.

Threads have a word each, so in every interleaving each runs as it would alone
(`scheduledThreads_run`), and the bounds hold of each. The results of a thread are numbered
as its gets are (`length_scheduledThreads_run`).
-/

namespace SpreadsNative

namespace Cpu

variable (coreCount : CoreCount) (tid : ManagedThreadId)

/-- What a thread reads where the native call answers `native`. `none` if it throws. -/
def envOn (native : Option Int32) : Env where
  coreCount := coreCount
  currentManagedThreadId := tid
  pal _ := native

/-- The id that `RefreshCurrentCoreId` computes there. -/
def idOn (native : Option Int32) : Int32 :=
  (refreshCurrentCoreId (envOn coreCount tid native) .fresh).1

/-- A thread that the system moves. -/
def scheduled (build : Build) : Fallible OverflowException (Option Int32 × Thread)
    (Roam (Option Int32) Call) (Option Int32 × Got) :=
  Fallible.roaming fun native => thread build (envOn coreCount tid native)

/-- Its unpacked cache. -/
def scheduledUnpacked :
    Machine (Option Int32 × Unpacked) (Roam (Option Int32) Call) (Option Int32 × Got) :=
  Machine.roaming fun native => unpacked (envOn coreCount tid native)

theorem normalizedId_envOn (native : Option Int32) (n : ℕ) :
    normalizedId (envOn coreCount tid native) n = idOn coreCount tid native := by
  rw [idOn, refreshCurrentCoreId_fst]
  rfl

/-- Wherever the thread is moved, its calls succeed and show what the unpacked cache
shows. -/
theorem scheduled_simulates (build : Build) :
    (scheduled coreCount tid build).Simulates (scheduledUnpacked coreCount tid) fun a s =>
      a.1 = s.1 ∧ Packs (envOn coreCount tid none) a.2 s.2 :=
  Fallible.Simulates.roaming fun native => thread_simulates build (envOn coreCount tid native)

theorem scheduled_run (build : Build) (native : Option Int32)
    (events : List (Roam (Option Int32) Call)) :
    ∃ t, (scheduled coreCount tid build).run events (native, .fresh) =
      .ok (((scheduledUnpacked coreCount tid).run events (native, .fresh)).1, t) := by
  obtain ⟨t, ht, -⟩ := (scheduled_simulates coreCount tid build).run events
    (a := (native, .fresh)) (s := (native, .fresh)) ⟨rfl, packs_fresh _⟩
  exact ⟨t, ht⟩

/-- The results of a run are numbered as its gets are. -/
theorem length_scheduled_run {build : Build} {events : List (Roam (Option Int32) Call)}
    {s s' : Option Int32 × Thread} {shown : List (Option Int32 × Got)}
    (h : (scheduled coreCount tid build).run events s = .ok (shown, s')) :
    shown.length = events.count (.input .getCurrentCoreId) := by
  refine Fallible.length_run_eq_count (fun {s i o s'} hi => ?_) h
  cases i with
  | move native =>
    obtain ⟨rfl, -⟩ := Prod.mk.inj (Except.ok.inj hi)
    rfl
  | input c =>
    change (call build (envOn coreCount tid s.1) s.2 c).map _ = _ at hi
    cases hc : call build (envOn coreCount tid s.1) s.2 c with
    | error e => simp [hc, Except.map] at hi
    | ok r =>
      rw [hc] at hi
      obtain ⟨rfl, -⟩ := Prod.mk.inj (Except.ok.inj hi)
      rw [List.length_map, length_call hc]
      simp only [Roam.input.injEq]

/-! ## One call -/

/-- A cache that is not due is read and counts down. A due one is refreshed where the
thread runs. -/
theorem scheduled_step_get (native : Option Int32) (a : Unpacked) :
    (∃ lastId c, a.cache = .cached lastId (c + 1) ∧
      (scheduledUnpacked coreCount tid).step (native, a) (.input .getCurrentCoreId) =
        ([(native, ⟨lastId, false⟩)], native, ⟨.cached lastId c, a.nativeCalls⟩)) ∨
    a.cache.countdown = 0 ∧
      (scheduledUnpacked coreCount tid).step (native, a) (.input .getCurrentCoreId) =
        ([(native, ⟨idOn coreCount tid native, true⟩)], native,
          ⟨.cached (idOn coreCount tid native) refreshPeriod, a.nativeCalls + 1⟩) := by
  have hid := normalizedId_envOn coreCount tid native a.nativeCalls
  rcases a with ⟨_ | ⟨lastId, _ | c⟩, n⟩
  · exact Or.inr ⟨rfl, by rw [← hid]; rfl⟩
  · exact Or.inr ⟨rfl, by rw [← hid]; rfl⟩
  · exact Or.inl ⟨lastId, c, rfl, rfl⟩

theorem scheduled_step_flush (native : Option Int32) (a : Unpacked) :
    ∃ cache, (scheduledUnpacked coreCount tid).step (native, a) (.input .flushCurrentCpuId) =
        ([], native, ⟨cache, a.nativeCalls⟩) ∧
      (a.cache = .empty ∧ cache = .empty ∨
        ∃ lastId c, a.cache = .cached lastId c ∧ cache = .cached lastId (c % 2)) := by
  rcases a with ⟨_ | ⟨lastId, c⟩, n⟩
  · exact ⟨_, rfl, Or.inl ⟨rfl, rfl⟩⟩
  · exact ⟨_, rfl, Or.inr ⟨lastId, c, rfl, rfl⟩⟩

/-! ## The age of an id -/

/-- The `i`-th get, or one of the 100 before it, was made on a processor with this id. -/
def Recent (shown : List (Option Int32 × Got)) (i : ℕ) (id : Int32) : Prop :=
  ∃ j q, j ≤ i ∧ i ≤ j + 100 ∧ shown[j]? = some q ∧ id = idOn coreCount tid q.1

theorem Recent.cons {shown : List (Option Int32 × Got)} {i : ℕ} {id : Int32}
    (h : Recent coreCount tid shown i id) (p : Option Int32 × Got) :
    Recent coreCount tid (p :: shown) (i + 1) id := by
  obtain ⟨j, q, hle, hge, hq, hid⟩ := h
  exact ⟨j + 1, q, by omega, by omega, hq, hid⟩

theorem recent_head {shown : List (Option Int32 × Got)} {p : Option Int32 × Got} {i : ℕ}
    (h : i ≤ 100) : Recent coreCount tid (p :: shown) i (idOn coreCount tid p.1) :=
  ⟨0, p, Nat.zero_le i, by omega, rfl, rfl⟩

/-- An id that is shown is a recent one, or the cached id that the run starts with, before
its countdown has run out. -/
theorem scheduledUnpacked_age :
    ∀ (events : List (Roam (Option Int32) Call)) (native : Option Int32) (a : Unpacked) {i : ℕ}
      {p : Option Int32 × Got},
      ((scheduledUnpacked coreCount tid).run events (native, a)).1[i]? = some p →
      Recent coreCount tid ((scheduledUnpacked coreCount tid).run events (native, a)).1 i
        p.2.value ∨ ∃ c, a.cache = .cached p.2.value c ∧ i < c
  | [], _, _, _, _, h => by simp at h
  | .move native' :: events, native, a, i, p, h => scheduledUnpacked_age events native' a h
  | .input .flushCurrentCpuId :: events, native, a, i, p, h => by
    obtain ⟨cache, hstep, hcache⟩ := scheduled_step_flush coreCount tid native a
    rw [Machine.run_cons, hstep, List.nil_append] at h ⊢
    rcases scheduledUnpacked_age events native _ h with hrecent | ⟨c, hc, hlt⟩
    · exact Or.inl hrecent
    · rcases hcache with ⟨-, hempty⟩ | ⟨lastId, c', ha, hflush⟩
      · exact absurd (hempty.symm.trans hc) nofun
      · obtain ⟨rfl, rfl⟩ := Cache.cached.inj (hflush.symm.trans hc)
        exact Or.inr ⟨c', ha, hlt.trans_le (Nat.mod_le c' 2)⟩
  | .input .getCurrentCoreId :: events, native, a, 0, p, h => by
    rcases scheduled_step_get coreCount tid native a with ⟨lastId, c, ha, hstep⟩ | ⟨-, hstep⟩ <;>
      rw [Machine.run_cons, hstep, List.singleton_append] at h ⊢ <;>
      obtain rfl := Option.some.inj h
    · exact Or.inr ⟨c + 1, ha, Nat.succ_pos c⟩
    · exact Or.inl (recent_head coreCount tid (Nat.zero_le _))
  | .input .getCurrentCoreId :: events, native, a, i + 1, p, h => by
    rcases scheduled_step_get coreCount tid native a with ⟨lastId, c, ha, hstep⟩ | ⟨-, hstep⟩ <;>
      rw [Machine.run_cons, hstep, List.singleton_append, List.getElem?_cons_succ] at h <;>
      rw [Machine.run_cons, hstep, List.singleton_append] <;>
      rcases scheduledUnpacked_age events native _ h with hrecent | ⟨c', hc, hlt⟩
    · exact Or.inl (hrecent.cons coreCount tid _)
    · obtain ⟨rfl, rfl⟩ := Cache.cached.inj hc
      exact Or.inr ⟨c + 1, ha, by omega⟩
    · exact Or.inl (hrecent.cons coreCount tid _)
    · -- the refresh was made here, and its countdown has not run out
      obtain ⟨hid, rfl⟩ := Cache.cached.inj hc
      rw [← hid]
      exact Or.inl (recent_head coreCount tid hlt)

/-- Every id that is shown is a recent one, however the thread is moved. -/
theorem scheduled_age (build : Build) (native : Option Int32)
    (events : List (Roam (Option Int32) Call)) :
    ∃ shown t, (scheduled coreCount tid build).run events (native, .fresh) = .ok (shown, t) ∧
      ∀ i p, shown[i]? = some p → Recent coreCount tid shown i p.2.value := by
  obtain ⟨t, ht⟩ := scheduled_run coreCount tid build native events
  refine ⟨_, t, ht, fun i p hp => ?_⟩
  rcases scheduledUnpacked_age coreCount tid events native _ hp with hrecent | ⟨c, hc, -⟩
  · exact hrecent
  · exact absurd hc nofun

/-- A flush is a barrier : of the gets after it only the first may show the id of a
processor that the thread was on before it. -/
theorem scheduled_barrier (build : Build) (native : Option Int32)
    (pre post : List (Roam (Option Int32) Call)) :
    ∃ before t after t', (scheduled coreCount tid build).run pre (native, .fresh) =
        .ok (before, t) ∧
      (scheduled coreCount tid build).run (.input .flushCurrentCpuId :: post) t = .ok (after, t') ∧
      ∀ i p, 0 < i → after[i]? = some p → Recent coreCount tid after i p.2.value := by
  obtain ⟨t, ht, hrel⟩ := (scheduled_simulates coreCount tid build).run pre
    (a := (native, .fresh)) (s := (native, .fresh)) ⟨rfl, packs_fresh _⟩
  obtain ⟨t', ht', -⟩ := (scheduled_simulates coreCount tid build).run
    (.input .flushCurrentCpuId :: post) hrel
  refine ⟨_, t, _, t', ht, ht', fun i p hi hp => ?_⟩
  generalize ((scheduledUnpacked coreCount tid).run pre (native, .fresh)).2 = s at hp ⊢
  obtain ⟨native', a⟩ := s
  obtain ⟨cache, hstep, hcache⟩ := scheduled_step_flush coreCount tid native' a
  rw [Machine.run_cons, hstep, List.nil_append] at hp ⊢
  rcases scheduledUnpacked_age coreCount tid post native' _ hp with hrecent | ⟨c, hc, hlt⟩
  · exact hrecent
  · -- the cached id of before the flush has at most one get left
    rcases hcache with ⟨-, rfl⟩ | ⟨lastId, c', -, rfl⟩
    · exact absurd hc nofun
    · obtain ⟨-, rfl⟩ := Cache.cached.inj hc
      omega

/-! ## What a move costs -/

/-- One if the id shown is not that of the processor the get is made on. -/
def stale (p : Option Int32 × Got) : ℕ :=
  if p.2.value = idOn coreCount tid p.1 then 0 else 1

/-- The gets that show another id than that of the processor they are made on. -/
def staleGets (shown : List (Option Int32 × Got)) : ℕ :=
  (shown.map (stale coreCount tid)).sum

/-- The gets that the cache may still get wrong on this processor. -/
def debt (s : Option Int32 × Unpacked) : ℕ :=
  match s.2.cache with
  | .empty => 0
  | .cached lastId c => if lastId = idOn coreCount tid s.1 then 0 else c

theorem debt_le (s : Option Int32 × Unpacked) : debt coreCount tid s ≤ s.2.cache.countdown := by
  rcases s with ⟨native, _ | ⟨lastId, c⟩, n⟩
  · exact le_rfl
  · simp only [debt]
    split_ifs
    · exact Nat.zero_le _
    · exact le_rfl

/-- A call pays for the id it shows out of the debt. -/
theorem debt_step_input (s : Option Int32 × Unpacked) (c : Call) :
    staleGets coreCount tid ((scheduledUnpacked coreCount tid).step s (.input c)).1 +
      debt coreCount tid ((scheduledUnpacked coreCount tid).step s (.input c)).2 ≤
        debt coreCount tid s := by
  obtain ⟨native, a⟩ := s
  cases c with
  | flushCurrentCpuId =>
    obtain ⟨cache, hstep, hcache⟩ := scheduled_step_flush coreCount tid native a
    rw [hstep]
    rcases hcache with ⟨-, rfl⟩ | ⟨lastId, c, ha, rfl⟩
    · exact Nat.zero_le _
    · simp only [debt, ha, staleGets, List.map_nil, List.sum_nil, Nat.zero_add]
      split_ifs
      · exact le_rfl
      · exact Nat.mod_le c 2
  | getCurrentCoreId =>
    rcases scheduled_step_get coreCount tid native a with
      ⟨lastId, c, ha, hstep⟩ | ⟨-, hstep⟩ <;> rw [hstep]
    · simp only [debt, ha, staleGets, stale, List.map_cons, List.map_nil, List.sum_singleton]
      split_ifs <;> omega
    · simp [debt, staleGets, stale]

theorem countdown_step {s : Option Int32 × Unpacked}
    (h : s.2.cache.countdown ≤ refreshPeriod) (e : Roam (Option Int32) Call) :
    ((scheduledUnpacked coreCount tid).step s e).2.2.cache.countdown ≤ refreshPeriod := by
  obtain ⟨native, a⟩ := s
  cases e with
  | move native' => exact h
  | input c =>
    rw [show ((scheduledUnpacked coreCount tid).step (native, a) (.input c)).2.2 =
      ((unpacked (envOn coreCount tid native)).step a c).2 from rfl]
    have hhom := congrArg Prod.snd ((countdownHom (envOn coreCount tid native)).step a c)
    exact hhom.symm.trans_le (Countdown.step_le h c.input)

/-- One if the event is a move. -/
def moved : Roam (Option Int32) Call → ℕ
  | .move _ => 1
  | .input _ => 0

/-- The moves among the events. -/
def moves (events : List (Roam (Option Int32) Call)) : ℕ :=
  (events.map moved).sum

/-- A move costs at most 100 gets that show another id than the one of the processor they
are made on. -/
theorem scheduledUnpacked_stale_le_moves (native : Option Int32)
    (events : List (Roam (Option Int32) Call)) :
    staleGets coreCount tid ((scheduledUnpacked coreCount tid).run events (native, .fresh)).1 ≤
      100 * moves events := by
  have hstep : ∀ s e, s.2.cache.countdown ≤ refreshPeriod →
      (((scheduledUnpacked coreCount tid).step s e).1.map (stale coreCount tid)).sum +
        debt coreCount tid ((scheduledUnpacked coreCount tid).step s e).2 ≤
      debt coreCount tid s +
        (((scheduledUnpacked coreCount tid).step s e).1.map fun _ => 0).sum + 100 * moved e := by
    intro s e hs
    cases e with
    | move native' =>
      have hdebt := (debt_le coreCount tid (native', s.2)).trans hs
      exact (Nat.zero_add _).trans_le (hdebt.trans (Nat.le_add_left _ _))
    | input c =>
      have hdebt := debt_step_input coreCount tid s c
      unfold staleGets at hdebt
      omega
  have hrun := (scheduledUnpacked coreCount tid).run_potential (debt coreCount tid)
    (stale coreCount tid) (fun _ => 0) (fun e => 100 * moved e)
    (fun s e h => countdown_step coreCount tid h e) hstep events (native, .fresh) (Nat.zero_le _)
  rw [List.sum_map_mul_left] at hrun
  simp only [List.map_const', List.sum_replicate_nat, Nat.mul_zero] at hrun
  have hfresh : debt coreCount tid (native, .fresh) = 0 := rfl
  unfold staleGets moves
  omega

/-- The first event after each move is a flush. -/
inductive FlushesMoves : List (Roam (Option Int32) Call) → Prop
  | nil : FlushesMoves []
  | input (c : Call) {events : List (Roam (Option Int32) Call)} :
      FlushesMoves events → FlushesMoves (.input c :: events)
  | move (native : Option Int32) {events : List (Roam (Option Int32) Call)} :
      FlushesMoves events →
      FlushesMoves (.move native :: .input .flushCurrentCpuId :: events)

/-- After a flush at most one get is wrong. -/
theorem debt_flush (s : Option Int32 × Unpacked) :
    staleGets coreCount tid
        ((scheduledUnpacked coreCount tid).step s (.input .flushCurrentCpuId)).1 +
      debt coreCount tid
        ((scheduledUnpacked coreCount tid).step s (.input .flushCurrentCpuId)).2 ≤ 1 := by
  obtain ⟨native, a⟩ := s
  obtain ⟨cache, hstep, hcache⟩ := scheduled_step_flush coreCount tid native a
  rw [hstep]
  refine (Nat.zero_add _).trans_le ((debt_le coreCount tid _).trans ?_)
  rcases hcache with ⟨-, rfl⟩ | ⟨lastId, c, -, rfl⟩
  · exact Nat.zero_le _
  · exact Nat.le_of_lt_succ (Nat.mod_lt c Nat.two_pos)

theorem staleGets_append (shown shown' : List (Option Int32 × Got)) :
    staleGets coreCount tid (shown ++ shown') =
      staleGets coreCount tid shown + staleGets coreCount tid shown' := by
  rw [staleGets, List.map_append, List.sum_append]
  rfl

theorem scheduledUnpacked_stale_le {events : List (Roam (Option Int32) Call)}
    (h : FlushesMoves events) : ∀ s : Option Int32 × Unpacked,
      staleGets coreCount tid ((scheduledUnpacked coreCount tid).run events s).1 ≤
        debt coreCount tid s + moves events := by
  induction h with
  | nil => exact fun s => Nat.zero_le _
  | @input c events _ ih =>
    intro s
    have hc := debt_step_input coreCount tid s c
    have hrest := ih ((scheduledUnpacked coreCount tid).step s (.input c)).2
    rw [Machine.run_cons, staleGets_append]
    change _ ≤ _ + (0 + moves events)
    omega
  | @move native events _ ih =>
    intro s
    have hflush := debt_flush coreCount tid (native, s.2)
    have hrest := ih ((scheduledUnpacked coreCount tid).step (native, s.2)
      (.input .flushCurrentCpuId)).2
    have hrun : ((scheduledUnpacked coreCount tid).run
          (.move native :: .input .flushCurrentCpuId :: events) s).1 =
        ((scheduledUnpacked coreCount tid).step (native, s.2) (.input .flushCurrentCpuId)).1 ++
          ((scheduledUnpacked coreCount tid).run events
            ((scheduledUnpacked coreCount tid).step (native, s.2)
              (.input .flushCurrentCpuId)).2).1 := rfl
    rw [hrun, staleGets_append]
    change _ ≤ _ + (1 + (0 + moves events))
    omega

/-- A move costs at most 100 such gets, and at most one if the thread flushes after each
move. So a thread that is not moved is always shown the right id. -/
theorem scheduled_stale_le (build : Build) (native : Option Int32)
    (events : List (Roam (Option Int32) Call)) :
    ∃ shown t, (scheduled coreCount tid build).run events (native, .fresh) = .ok (shown, t) ∧
      staleGets coreCount tid shown ≤ 100 * moves events ∧
      (FlushesMoves events → staleGets coreCount tid shown ≤ moves events) := by
  obtain ⟨t, ht⟩ := scheduled_run coreCount tid build native events
  refine ⟨_, t, ht, scheduledUnpacked_stale_le_moves coreCount tid native events, fun h => ?_⟩
  exact (scheduledUnpacked_stale_le coreCount tid h _).trans_eq (Nat.zero_add _)

/-! ## Several threads -/

section

variable {κ : Type*} [DecidableEq κ]

/-- Threads that the system moves. An event is a thread and what happens to it. -/
def scheduledThreads (build : Build) (coreCount : CoreCount) (tid : κ → ManagedThreadId) :
    Fallible OverflowException (κ → Option Int32 × Thread) (κ × Roam (Option Int32) Call)
      (κ × Option Int32 × Got) :=
  Fallible.pool fun k => scheduled coreCount (tid k) build

variable (build : Build) (coreCount : CoreCount) (tid : κ → ManagedThreadId)
  (native : κ → Option Int32) (events : List (κ × Roam (Option Int32) Call))

/-- Every interleaving succeeds, and runs each thread as it would run alone. -/
theorem scheduledThreads_run :
    ∃ shown ts, (scheduledThreads build coreCount tid).run events
        (fun k => (native k, .fresh)) = .ok (shown, ts) ∧
      ∀ k, (scheduled coreCount (tid k) build).run (ofKey k events) (native k, .fresh) =
        .ok (ofKey k shown, ts k) := by
  have hsim := Fallible.Simulates.pool fun k =>
    scheduled_simulates coreCount (tid k) build
  obtain ⟨ts, hts, -⟩ := hsim.run events (a := fun k => (native k, .fresh))
    (s := fun k => (native k, .fresh)) fun k => ⟨rfl, packs_fresh _⟩
  exact ⟨_, ts, hts, fun k => Fallible.pool_run_ofKey k hts⟩

omit native events in
/-- In every interleaving the results of each thread are numbered as its gets are. -/
theorem length_threads_run {build : Build} {env : κ → Env} {calls : List (κ × Call)}
    {ts ts' : κ → Thread} {shown : List (κ × Got)}
    (h : (threads build env).run calls ts = .ok (shown, ts')) (k : κ) :
    (ofKey k shown).length = gets (ofKey k calls) :=
  length_thread_run (Fallible.pool_run_ofKey k h)

variable {build coreCount tid} in
theorem length_scheduledThreads_run {events : List (κ × Roam (Option Int32) Call)}
    {ts ts' : κ → Option Int32 × Thread} {shown : List (κ × Option Int32 × Got)}
    (h : (scheduledThreads build coreCount tid).run events ts = .ok (shown, ts')) (k : κ) :
    (ofKey k shown).length = (ofKey k events).count (.input .getCurrentCoreId) :=
  length_scheduled_run coreCount (tid k) (Fallible.pool_run_ofKey k h)

/-- What every thread is shown alone, it is shown in every interleaving. -/
theorem scheduledThreads_of_each
    {P : κ → List (Roam (Option Int32) Call) → List (Option Int32 × Got) → Prop}
    (h : ∀ k es, ∃ shown t, (scheduled coreCount (tid k) build).run es (native k, .fresh) =
      .ok (shown, t) ∧ P k es shown) :
    ∃ shown ts, (scheduledThreads build coreCount tid).run events
        (fun k => (native k, .fresh)) = .ok (shown, ts) ∧
      ∀ k, P k (ofKey k events) (ofKey k shown) := by
  obtain ⟨shown, ts, hts, heach⟩ := scheduledThreads_run build coreCount tid native events
  refine ⟨shown, ts, hts, fun k => ?_⟩
  obtain ⟨shown', t, ht, hP⟩ := h k (ofKey k events)
  obtain ⟨rfl, -⟩ := Prod.mk.inj (Except.ok.inj (ht.symm.trans (heach k)))
  exact hP

/-- In every interleaving, every id that a thread is shown is the one of a processor that
this thread was on at most 100 of its gets ago. -/
theorem scheduledThreads_age :
    ∃ shown ts, (scheduledThreads build coreCount tid).run events
        (fun k => (native k, .fresh)) = .ok (shown, ts) ∧
      ∀ k i p, (ofKey k shown)[i]? = some p →
        Recent coreCount (tid k) (ofKey k shown) i p.2.value :=
  scheduledThreads_of_each build coreCount tid native events
    fun k es => scheduled_age coreCount (tid k) build (native k) es

/-- In every interleaving, a move costs a thread at most 100 gets that show another id than
the one of the processor they are made on, and at most one if it flushes after each move. -/
theorem scheduledThreads_stale_le :
    ∃ shown ts, (scheduledThreads build coreCount tid).run events
        (fun k => (native k, .fresh)) = .ok (shown, ts) ∧
      ∀ k, staleGets coreCount (tid k) (ofKey k shown) ≤ 100 * moves (ofKey k events) ∧
        (FlushesMoves (ofKey k events) →
          staleGets coreCount (tid k) (ofKey k shown) ≤ moves (ofKey k events)) :=
  scheduledThreads_of_each build coreCount tid native events
    fun k es => scheduled_stale_le coreCount (tid k) build (native k) es

end

end Cpu

end SpreadsNative
