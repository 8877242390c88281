import SpreadsNative.CoreIdCache
import SpreadsNative.Countdown

/-!
# The ids a thread gets

The cached id is the one of the latest native call (`Unpacked.Latest`). So a get shows a
valid index (`getCurrentCoreId_validIndex`), and the id its latest refresh computed
(`unpacked_run_latest`). `thread_refines_unpacked` puts the refinement in terms of the
code : what both builds show, the word they end in, and what it decodes to.
-/

namespace SpreadsNative

open PackedWord

namespace Cpu

/-! ## The latest id -/

/-- The cached id is the one the last native call gave. -/
def Unpacked.Latest (env : Env) (a : Unpacked) : Prop :=
  match a.cache with
  | .empty => a.nativeCalls = 0
  | .cached lastId _ => 0 < a.nativeCalls ∧ lastId = normalizedId env (a.nativeCalls - 1)

theorem Unpacked.latest_fresh (env : Env) : Unpacked.fresh.Latest env :=
  rfl

theorem Unpacked.latest_refresh (env : Env) (a : Unpacked) : (a.refresh env).Latest env :=
  ⟨Nat.succ_pos _, rfl⟩

/-- The number of refreshes a list of results reports. -/
def refreshes (shown : List Got) : ℕ :=
  Countdown.fires (shown.map Got.refreshed)

@[simp] theorem refreshes_nil : refreshes [] = 0 :=
  rfl

theorem refreshes_cons (g : Got) (shown : List Got) :
    refreshes (g :: shown) = refreshes [g] + refreshes shown := by
  rcases g with ⟨id, _ | _⟩ <;> simp [refreshes, Nat.add_comm]

/-- A flush shows nothing and makes no native call. -/
theorem Unpacked.step_flush (env : Env) (a : Unpacked) :
    ((unpacked env).step a .flushCurrentCpuId).1 = [] ∧
      ((unpacked env).step a .flushCurrentCpuId).2.nativeCalls = a.nativeCalls := by
  rcases a with ⟨_ | _, _⟩ <;> exact ⟨rfl, rfl⟩

/-- A get shows the id of the latest native call, its own if it made one. -/
theorem Unpacked.Latest.step_get {env : Env} {a : Unpacked} (h : a.Latest env) :
    ∃ g k, ((unpacked env).step a .getCurrentCoreId).1 = [g] ∧
      ((unpacked env).step a .getCurrentCoreId).2.nativeCalls = a.nativeCalls + refreshes [g] ∧
      a.nativeCalls + refreshes [g] = k + 1 ∧ g.value = normalizedId env k := by
  rcases a with ⟨_ | ⟨lastId, _ | c⟩, n⟩
  · exact ⟨_, n, rfl, rfl, rfl, rfl⟩
  · exact ⟨_, n, rfl, rfl, rfl, rfl⟩
  · exact ⟨_, n - 1, rfl, rfl, Nat.succ_pred_eq_of_pos h.1 |>.symm, h.2⟩

/-- Every call keeps the cached id the latest one. -/
theorem Unpacked.Latest.step {env : Env} {a : Unpacked} (h : a.Latest env) (i : Call) :
    ((unpacked env).step a i).2.Latest env := by
  rcases a with ⟨_ | ⟨lastId, _ | c⟩, n⟩ <;> cases i <;>
    first
      | exact h
      | exact latest_refresh env _

/-- A get shows a normalised id, so whatever holds of these holds of what it shows. -/
theorem Unpacked.Latest.step_value {env : Env} {P : Int32 → Prop}
    (hP : ∀ k, P (normalizedId env k)) (a : Unpacked) (i : Call) (h : a.Latest env) :
    ((unpacked env).step a i).2.Latest env ∧ ∀ g ∈ ((unpacked env).step a i).1, P g.value := by
  refine ⟨h.step i, fun g hg => ?_⟩
  cases i with
  | flushCurrentCpuId =>
    simp [(a.step_flush env).1] at hg
  | getCurrentCoreId =>
    obtain ⟨g', k, hone, -, -, hval⟩ := h.step_get
    rw [hone, List.mem_singleton] at hg
    rw [hg, hval]
    exact hP k

theorem unpacked_run_validIndex {env : Env} {a : Unpacked} (h : a.Latest env)
    (calls : List Call) : ∀ g ∈ ((unpacked env).run calls a).1, ValidIndex env.coreCount g.value :=
  ((unpacked env).run_invariant
    (Unpacked.Latest.step_value (validIndex_normalizedId env)) calls a h).2

/-- Each result is the id the latest refresh computed, its own if it refreshed. A
refresh makes one native call, so the `k + 1`-st refresh is the one of native call `k`. -/
theorem unpacked_run_latest {env : Env} :
    ∀ (calls : List Call) {a : Unpacked}, a.Latest env → ∀ {i : ℕ} {g : Got},
      ((unpacked env).run calls a).1[i]? = some g →
      ∃ k, a.nativeCalls + refreshes (((unpacked env).run calls a).1.take (i + 1)) = k + 1 ∧
        g.value = normalizedId env k
  | [], _, _, _, _, hg => by simp at hg
  | .flushCurrentCpuId :: calls, a, h, i, g, hg => by
    obtain ⟨hnone, hcalls⟩ := a.step_flush env
    rw [Machine.run_cons, hnone, List.nil_append] at hg ⊢
    rw [← hcalls]
    exact unpacked_run_latest calls (h.step _) hg
  | .getCurrentCoreId :: calls, a, h, i, g, hg => by
    obtain ⟨g', k, hone, hcalls, hk, hval⟩ := h.step_get
    rw [Machine.run_cons, hone, List.singleton_append] at hg ⊢
    cases i with
    | zero =>
      obtain rfl : g' = g := by simpa using hg
      exact ⟨k, by simpa using hk, hval⟩
    | succ i =>
      rw [List.getElem?_cons_succ] at hg
      obtain ⟨k', hk', hval'⟩ := unpacked_run_latest calls (h.step _) hg
      refine ⟨k', ?_, hval'⟩
      rw [List.take_succ_cons, refreshes_cons, ← Nat.add_assoc, ← hcalls]
      exact hk'

/-- The native calls of a run are the refreshes it shows. -/
theorem unpacked_run_nativeCalls {env : Env} :
    ∀ (calls : List Call) {a : Unpacked}, a.Latest env →
      ((unpacked env).run calls a).2.nativeCalls =
        a.nativeCalls + refreshes ((unpacked env).run calls a).1
  | [], _, _ => rfl
  | .flushCurrentCpuId :: calls, a, h => by
    obtain ⟨hnone, hcalls⟩ := a.step_flush env
    rw [Machine.run_cons, hnone, List.nil_append, ← hcalls]
    exact unpacked_run_nativeCalls calls (h.step _)
  | .getCurrentCoreId :: calls, a, h => by
    obtain ⟨g, -, hone, hcalls, -, -⟩ := h.step_get
    rw [Machine.run_cons, hone, List.singleton_append, refreshes_cons, ← Nat.add_assoc, ← hcalls]
    exact unpacked_run_nativeCalls calls (h.step _)

/-- After `k + 1` refreshes the cache holds the id of the last one. -/
theorem unpacked_run_cache {env : Env} (calls : List Call) {k : ℕ}
    (hk : refreshes ((unpacked env).run calls .fresh).1 = k + 1) :
    ∃ c, ((unpacked env).run calls .fresh).2.cache = .cached (normalizedId env k) c := by
  have hlatest := ((unpacked env).run_invariant (P := fun _ => True)
    (fun a i h => ⟨h.step i, fun _ _ => trivial⟩) calls _ (Unpacked.latest_fresh env)).1
  have hcalls := unpacked_run_nativeCalls calls (Unpacked.latest_fresh env)
  rw [hk, show Unpacked.fresh.nativeCalls = 0 from rfl, Nat.zero_add] at hcalls
  unfold Unpacked.Latest at hlatest
  rw [hcalls] at hlatest
  rcases hcache : ((unpacked env).run calls .fresh).2.cache with _ | ⟨lastId, c⟩
  · rw [hcache] at hlatest
    omega
  · rw [hcache] at hlatest
    exact ⟨c, by rw [hlatest.2]; rfl⟩

/-! ## What a thread shows -/

/-- Every id a thread gets, on either path, is a valid index of an array of `CoreCount`
elements, whatever the native calls answer. -/
theorem getCurrentCoreId_validIndex (build : Build) (env : Env) (calls : List Call) :
    ∃ shown t, (thread build env).run calls .fresh = .ok (shown, t) ∧
      ∀ g ∈ shown, 0 ≤ g.value ∧ g.value < env.coreCount.val := by
  obtain ⟨t, hrun, -⟩ := (thread_simulates build env).run calls (packs_fresh env)
  exact ⟨_, t, hrun, unpacked_run_validIndex (Unpacked.latest_fresh env) calls⟩

/-- The word decodes to the cache : the upper bits to the id, the lower 16 to a countdown
of at most `RefreshRate`. -/
def Decodes : Cache → Int32 → Prop
  | .empty, word => word = 0
  | .cached lastId c, word =>
    word >>> cacheShift = lastId ∧ (word &&& cacheCountDownMask).toInt = c ∧
      (c : ℤ) ≤ refreshRate.toInt

theorem PacksWord.decodes {n : CoreCount} {a : Cache} {word : Int32} (h : PacksWord n a word) :
    Decodes a word := by
  cases a with
  | empty => exact h
  | cached lastId c =>
    have hc : c ≤ 100 := h.2.1
    have hlo : (word &&& cacheCountDownMask).toBitVec.toNat = c := by
      rw [Int32.toBitVec_and, show cacheCountDownMask.toBitVec = lowMask 32 16 from rfl,
        toNat_and_lowMask cacheShift_lt, h.lo_eq, Cache.countdown]
    refine ⟨h.shiftRight_eq, ?_, ?_⟩
    · rw [← Int32.toInt_toBitVec, BitVec.toInt_eq_toNat_of_lt (by omega), hlo]
    · rw [show refreshRate.toInt = 100 from rfl]
      omega

/-- A flush leaves the id bits. -/
theorem PacksWord.flush_shiftRight {n : CoreCount} {a : Cache} {word : Int32}
    (h : PacksWord n a word) :
    (word &&& (~~~cacheCountDownMask ||| 1)) >>> cacheShift = word >>> cacheShift := by
  cases a with
  | empty =>
    unfold PacksWord at h
    subst h
    rfl
  | cached lastId c => rw [h.flush.shiftRight_eq, h.shiftRight_eq]

/-- The packed word refines the unpacked cache. After any calls on a new thread both
builds have shown what the unpacked cache shows and hold one word, which decodes to the
unpacked cache. Each get showed the id that the latest refresh computed, the upper bits
hold the id of the last one, and one more flush would leave them. -/
theorem thread_refines_unpacked (env : Env) (calls : List Call) :
    ∃ t : Thread,
      (∀ build, (thread build env).run calls .fresh =
        .ok (((unpacked env).run calls .fresh).1, t)) ∧
      Decodes ((unpacked env).run calls .fresh).2.cache t.currentProcessorIdCache ∧
      (∀ i g, ((unpacked env).run calls .fresh).1[i]? = some g →
        ∃ k, refreshes (((unpacked env).run calls .fresh).1.take (i + 1)) = k + 1 ∧
          ∀ t₀ : Thread, t₀.nativeCalls = k → g.value = (refreshCurrentCoreId env t₀).1) ∧
      (∀ k, refreshes ((unpacked env).run calls .fresh).1 = k + 1 →
        ∀ t₀ : Thread, t₀.nativeCalls = k →
          t.currentProcessorIdCache >>> cacheShift = (refreshCurrentCoreId env t₀).1) ∧
      (flushCurrentCpuId t).currentProcessorIdCache >>> cacheShift =
        t.currentProcessorIdCache >>> cacheShift := by
  obtain ⟨t, hrun, hpacks⟩ := (thread_simulates .release env).run calls (packs_fresh env)
  have hdecodes := hpacks.1.decodes
  refine ⟨t, fun build => ?_, hdecodes, fun i g hg => ?_, fun k hk => ?_,
    hpacks.1.flush_shiftRight⟩
  · obtain ⟨t', hrun', hpacks'⟩ := (thread_simulates build env).run calls (packs_fresh env)
    rw [hrun', hpacks'.unique hpacks]
  · obtain ⟨k, hk, hval⟩ := unpacked_run_latest calls (Unpacked.latest_fresh env) hg
    refine ⟨k, by simpa [Unpacked.fresh] using hk, ?_⟩
    rintro t₀ rfl
    rw [hval, refreshCurrentCoreId_fst]
  · obtain ⟨c, hcache⟩ := unpacked_run_cache calls hk
    rw [hcache] at hdecodes
    rintro t₀ rfl
    rw [hdecodes.1, refreshCurrentCoreId_fst]

end Cpu

end SpreadsNative
