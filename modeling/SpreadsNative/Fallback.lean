import SpreadsNative.CoreId
import SpreadsNative.Pal
import SpreadsNative.Arcs

/-!
# The thread id fallback

With no native CPU number `RefreshCurrentCoreId` starts from the managed thread id, so
every refresh of a thread computes one id (`normalizedId_of_unavailable`). The threads
run interleaved, each on its own word (`threads`).

`fallback_stable_balanced` : each thread gets one id in all its calls, under every
interleaving, and `n` threads with consecutive managed thread ids spread evenly over the
ids, because consecutive numbers spread evenly over the remainders
(`Arcs.card_residue_le`).
-/

open Finset

namespace SpreadsNative

namespace Cpu

/-! ## One id per thread -/

/-- The native library is missing, or its CPU number is always negative. -/
def Unavailable (pal : ℕ → Option Int32) : Prop :=
  ∀ m x, pal m = some x → x < 0

/-- On targets other than Windows and Linux the CPU number is unavailable. -/
theorem unavailable_other : Unavailable fun _ => some (spreadsPalGetCpuNumber .other) := by
  rintro m x h
  obtain rfl := Option.some.inj h
  decide

theorem Unavailable.getCpuNumber_neg {pal : ℕ → Option Int32} (h : Unavailable pal) (m : ℕ) :
    getCpuNumber (pal m) < 0 := by
  cases hm : pal m with
  | none => decide
  | some x => exact h m x hm

/-- The id of the fallback : the managed thread id by `CoreCount`. -/
def fallbackId (coreCount : CoreCount) (tid : ManagedThreadId) : Int32 :=
  .ofInt (tid.val.toInt % coreCount.val.toInt)

/-- Every refresh computes the fallback id. -/
theorem normalizedId_of_unavailable {env : Env} (h : Unavailable env.pal) (m : ℕ) :
    normalizedId env m = fallbackId env.coreCount env.currentManagedThreadId := by
  rw [normalizedId, rawId, if_pos (h.getCpuNumber_neg m), fallbackId]

theorem toInt_fallbackId (coreCount : CoreCount) (tid : ManagedThreadId) :
    (fallbackId coreCount tid).toInt = tid.val.toInt % coreCount.val.toInt := by
  have hpos := coreCount.toInt_pos
  have hle := coreCount.toInt_le
  have h0 := Int.emod_nonneg tid.val.toInt hpos.ne'
  have h1 := Int.emod_lt_of_pos tid.val.toInt hpos
  exact Int32.toInt_ofInt_of_le (by omega) (by omega)

/-- The managed thread ids are `first`, `first + 1`, and so on. -/
def Consecutive {n : ℕ} (first : ℕ) (tid : Fin n → ManagedThreadId) : Prop :=
  ∀ i, (tid i).val.toInt = (first + i : ℕ)

/-- Ids that are the remainders of consecutive numbers are balanced. -/
theorem consecutive_balanced {n : ℕ} {coreCount : CoreCount} {first : ℕ} {id : Fin n → Int32}
    (hid : ∀ i, (id i).toInt = (first + i : ℕ) % coreCount.val.toInt) {a b : Int32}
    (ha : ValidIndex coreCount a) (hb : ValidIndex coreCount b) :
    #{i | id i = a} ≤ #{i | id i = b} + 1 := by
  obtain ⟨N, hN⟩ := Int.eq_ofNat_of_zero_le coreCount.toInt_pos.le
  have hiff : ∀ {v : Int32}, ValidIndex coreCount v →
      ∃ k < N, ∀ i, id i = v ↔ (first + i) % N = k := by
    intro v hv
    obtain ⟨hv0, hvN⟩ := validIndex_iff.mp hv
    obtain ⟨k, hk⟩ := Int.eq_ofNat_of_zero_le hv0
    refine ⟨k, by omega, fun i => ?_⟩
    rw [← Int32.toInt_inj, hid i, hN, hk]
    exact_mod_cast Iff.rfl
  obtain ⟨ka, hka, hia⟩ := hiff ha
  obtain ⟨kb, hkb, hib⟩ := hiff hb
  simp only [hia, hib]
  exact Arcs.card_residue_le first n hka hkb

/-- Threads with consecutive managed thread ids spread evenly over the ids. -/
theorem fallbackId_balanced {n : ℕ} (coreCount : CoreCount) {first : ℕ}
    {tid : Fin n → ManagedThreadId} (hfirst : Consecutive first tid) {a b : Int32}
    (ha : ValidIndex coreCount a) (hb : ValidIndex coreCount b) :
    #{i | fallbackId coreCount (tid i) = a} ≤ #{i | fallbackId coreCount (tid i) = b} + 1 :=
  consecutive_balanced (fun i => by rw [toInt_fallbackId, hfirst i]) ha hb

/-! ## Interleaved threads -/

/-- Threads on their own words. An event is a thread and its call. -/
def threads {κ : Type*} [DecidableEq κ] (build : Build) (env : κ → Env) :
    Fallible OverflowException (κ → Thread) (κ × Call) (κ × Got) :=
  Fallible.pool fun k => thread build (env k)

/-- The threads' unpacked caches. -/
def unpackedThreads {κ : Type*} [DecidableEq κ] (env : κ → Env) :
    Machine (κ → Unpacked) (κ × Call) (κ × Got) :=
  Machine.pool fun k => unpacked (env k)

section

variable {κ : Type*} [DecidableEq κ] (env : κ → Env)

/-- A step of one thread shows its fallback id. -/
theorem unpacked_step_of_unavailable {env : Env} (h : Unavailable env.pal) (a : Unpacked)
    (i : Call) (ha : a.Latest env) :
    ((unpacked env).step a i).2.Latest env ∧ ∀ g ∈ ((unpacked env).step a i).1,
      g.value = fallbackId env.coreCount env.currentManagedThreadId :=
  Unpacked.Latest.step_value (P := (· = fallbackId env.coreCount env.currentManagedThreadId))
    (normalizedId_of_unavailable h) a i ha

/-- Whatever the interleaving, every thread shows its fallback id. -/
theorem unpackedThreads_run (h : ∀ k, Unavailable (env k).pal) (events : List (κ × Call)) :
    ∀ p ∈ ((unpackedThreads env).run events fun _ => .fresh).1,
      p.2.value = fallbackId (env p.1).coreCount (env p.1).currentManagedThreadId := by
  have hstep := fun s i => Machine.pool_invariant
    (fun k => unpacked_step_of_unavailable (h k)) s i
  exact ((unpackedThreads env).run_invariant hstep events _
    fun k => Unpacked.latest_fresh (env k)).2

/-- A thread that calls `GetCurrentCoreId` shows something. -/
theorem exists_mem_unpackedThreads_run {events : List (κ × Call)} {k : κ}
    (hk : (k, Call.getCurrentCoreId) ∈ events) :
    ∃ p ∈ ((unpackedThreads env).run events fun _ => .fresh).1, p.1 = k := by
  have hstep : ∀ k (a : Unpacked) i, a.Latest (env k) →
      ((unpacked (env k)).step a i).2.Latest (env k) := fun _ _ i h => h.step i
  refine (unpackedThreads env).exists_mem_run (Machine.pool_keeps hstep) (fun s hs => ?_) events _
    (fun k => Unpacked.latest_fresh (env k)) hk
  obtain ⟨g, -, hone, -⟩ := (hs k).step_get
  refine ⟨(k, g), ?_, rfl⟩
  change (k, g) ∈ ((unpacked (env k)).step (s k) .getCurrentCoreId).1.map (k, ·)
  rw [hone]
  exact List.mem_singleton_self _

end

/-- With no native CPU number the ids are stable and balanced. There is an id for each of
`n` threads with consecutive managed thread ids, any two ids going to numbers of threads
that differ by at most one, such that under every interleaving every get of a thread
shows that thread's id. So once each thread has made a get, the numbers of threads that
were shown two ids differ by at most one. -/
theorem fallback_stable_balanced (build : Build) {n : ℕ} (coreCount : CoreCount)
    (tid : Fin n → ManagedThreadId) (pal : Fin n → ℕ → Option Int32) {first : ℕ}
    (hfirst : Consecutive first tid) (hpal : ∀ i, Unavailable (pal i)) :
    ∃ ids : Fin n → Int32,
      (∀ a b, ValidIndex coreCount a → ValidIndex coreCount b →
        #{i | ids i = a} ≤ #{i | ids i = b} + 1) ∧
      ∀ events : List (Fin n × Call), ∃ shown ts,
        (threads build fun i => ⟨coreCount, tid i, pal i⟩).run events (fun _ => .fresh) =
          .ok (shown, ts) ∧
        (∀ p ∈ shown, p.2.value = ids p.1) ∧
        ((∀ i, (i, .getCurrentCoreId) ∈ events) → ∀ a b, ValidIndex coreCount a →
          ValidIndex coreCount b →
          #{i | ∃ p ∈ shown, p.1 = i ∧ p.2.value = a} ≤
            #{i | ∃ p ∈ shown, p.1 = i ∧ p.2.value = b} + 1) := by
  set env : Fin n → Env := fun i => ⟨coreCount, tid i, pal i⟩ with henv
  refine ⟨fun i => fallbackId coreCount (tid i), fun a b => fallbackId_balanced coreCount hfirst,
    fun events => ?_⟩
  obtain ⟨ts, hts, -⟩ := (Fallible.Simulates.pool fun i => thread_simulates build (env i)).run
    events fun i => packs_fresh (env i)
  have hshown := unpackedThreads_run env hpal events
  refine ⟨_, ts, hts, hshown, fun hall a b ha hb => ?_⟩
  have hids : ∀ i v, (∃ p ∈ ((unpackedThreads env).run events fun _ => .fresh).1,
      p.1 = i ∧ p.2.value = v) ↔ fallbackId coreCount (tid i) = v := by
    intro i v
    constructor
    · rintro ⟨p, hp, rfl, rfl⟩
      exact (hshown p hp).symm
    · rintro rfl
      obtain ⟨p, hp, rfl⟩ := exists_mem_unpackedThreads_run env (hall i)
      exact ⟨p, hp, rfl, hshown p hp⟩
  have hbal := fallbackId_balanced coreCount hfirst ha hb
  simp only [← hids] at hbal
  exact hbal

/-- Two cores. -/
def twoCores : CoreCount :=
  ⟨2, by decide, by decide⟩

/-- Threads 1, 2 and 3. -/
def firstThreads : Fin 3 → ManagedThreadId :=
  ![⟨1, by decide⟩, ⟨2, by decide⟩, ⟨3, by decide⟩]

theorem consecutive_firstThreads : Consecutive 1 firstThreads := by
  unfold Consecutive
  decide

/-- Threads 1, 2 and 3 on two cores, on a target with no CPU number. -/
theorem three_threads_on_two_cores :
    ∃ ids : Fin 3 → Int32,
      (∀ a b, ValidIndex twoCores a → ValidIndex twoCores b →
        #{i | ids i = a} ≤ #{i | ids i = b} + 1) ∧
      ∀ events : List (Fin 3 × Call), ∃ shown ts,
        (threads .release fun i => ⟨twoCores, firstThreads i,
            fun _ => some (spreadsPalGetCpuNumber .other)⟩).run events (fun _ => .fresh) =
          .ok (shown, ts) ∧
        (∀ p ∈ shown, p.2.value = ids p.1) ∧
        ((∀ i, (i, .getCurrentCoreId) ∈ events) → ∀ a b, ValidIndex twoCores a →
          ValidIndex twoCores b →
          #{i | ∃ p ∈ shown, p.1 = i ∧ p.2.value = a} ≤
            #{i | ∃ p ∈ shown, p.1 = i ∧ p.2.value = b} + 1) :=
  fallback_stable_balanced .release twoCores firstThreads _ consecutive_firstThreads
    fun _ => unavailable_other

end Cpu

end SpreadsNative
