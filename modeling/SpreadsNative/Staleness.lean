import SpreadsNative.CoreId

/-!
# How stale a cached id gets

Whether a `GetCurrentCoreId` refreshes depends on the countdown only (`countdownHom`), so
the rules of `Countdown` bound the age of a cached id, at period `RefreshRate`.

`getCurrentCoreId_staleness` : any 101 consecutive gets have a refresh, after a flush one
of the next two does, and two refreshes with no flush between them are exactly 101 gets
apart. `flush_refreshes_no_later` : a run with extra flushes refreshes at least as often
after the same number of gets, so no refresh of it is later. `nativeCalls_bounds` : a get in
101 makes a native call, and a flush at most one more.
-/

namespace SpreadsNative

namespace Cpu

/-- A call, as the countdown sees it. -/
def Call.input : Call → Countdown.Input
  | .getCurrentCoreId => .tick
  | .flushCurrentCpuId => .flush

/-- Whether a get refreshes depends on the countdown only. -/
theorem countdownHom (env : Env) :
    (unpacked env).Hom (Countdown.machine refreshPeriod) (fun a => a.cache.countdown) Call.input
      Got.refreshed where
  step a i := by
    rcases a with ⟨_ | ⟨lastId, _ | c⟩, n⟩ <;> cases i <;> rfl

/-- Which gets refresh is what a countdown from zero fires. -/
theorem map_refreshed_run (env : Env) (calls : List Call) :
    (((unpacked env).run calls .fresh).1).map Got.refreshed =
      ((Countdown.machine refreshPeriod).run (calls.map Call.input) 0).1 :=
  (congrArg Prod.fst ((countdownHom env).run calls .fresh)).symm

theorem length_run_input (env : Env) (calls : List Call) :
    ((unpacked env).run calls .fresh).1.length =
      ((Countdown.machine refreshPeriod).run (calls.map Call.input) 0).1.length := by
  rw [← map_refreshed_run env, List.length_map]

/-- The gets among the calls. -/
def gets (calls : List Call) : ℕ :=
  calls.count .getCurrentCoreId

theorem count_input (calls : List Call) :
    (calls.map Call.input).count .tick = gets calls := by
  induction calls with
  | nil => rfl
  | cons i calls ih => cases i <;> simp [gets, Call.input, ih]

/-- A get shows one result and a flush none. -/
theorem length_call {build : Build} {env : Env} {t t' : Thread} {i : Call} {shown : List Got}
    (h : call build env t i = .ok (shown, t')) :
    shown.length = if i = .getCurrentCoreId then 1 else 0 := by
  cases i with
  | flushCurrentCpuId =>
    obtain ⟨rfl, -⟩ := Prod.mk.inj (Except.ok.inj h)
    rfl
  | getCurrentCoreId =>
    unfold call at h
    cases hget : Cpu.getCurrentCoreId build env t with
    | error e => simp [hget, bind, Except.bind] at h
    | ok r =>
      simp only [hget, bind, Except.bind, pure, Except.pure, Except.ok.injEq, Prod.mk.injEq] at h
      obtain ⟨rfl, -⟩ := h
      rfl

/-- The results of a run are numbered as its gets are. -/
theorem length_thread_run {build : Build} {env : Env} {calls : List Call} {t t' : Thread}
    {shown : List Got} (h : (thread build env).run calls t = .ok (shown, t')) :
    shown.length = gets calls :=
  Fallible.length_run_eq_count length_call h

/-- The `i`-th result is there, and reports `b` for whether it refreshed. -/
def RefreshedAt (shown : List Got) (i : ℕ) (b : Bool) : Prop :=
  ∃ g, shown[i]? = some g ∧ g.refreshed = b

theorem refreshedAt_iff {shown : List Got} {i : ℕ} {b : Bool} :
    RefreshedAt shown i b ↔ (shown.map Got.refreshed)[i]? = some b := by
  rw [RefreshedAt, List.getElem?_map, Option.map_eq_some_iff]

theorem exists_refreshed_iff {shown : List Got} :
    (∃ g ∈ shown, g.refreshed = true) ↔ true ∈ shown.map Got.refreshed := by
  rw [List.mem_map]

/-- How stale a cached id gets, in every run of a new thread on every build.

* Any 101 consecutive gets have one that refreshes.
* After a flush one of the next two gets refreshes, whatever flushes come between.
* After a get that refreshes, with no flush between, `m` gets that do not and then one
  that does means `m + 1 = 101`. -/
theorem getCurrentCoreId_staleness (build : Build) (env : Env) :
    (∀ calls, ∃ shown t, (thread build env).run calls .fresh = .ok (shown, t) ∧
      ∀ i, i + 101 ≤ shown.length → ∃ g ∈ (shown.drop i).take 101, g.refreshed = true) ∧
    (∀ pre post, ∃ shown t,
      (thread build env).run (pre ++ .flushCurrentCpuId :: post) .fresh = .ok (shown, t) ∧
      (gets pre + 2 ≤ shown.length →
        ∃ g ∈ (shown.drop (gets pre)).take 2, g.refreshed = true)) ∧
    ∀ pre m post, ∃ shown t,
      (thread build env).run
        (pre ++ (List.replicate (m + 2) .getCurrentCoreId ++ post)) .fresh = .ok (shown, t) ∧
      (RefreshedAt shown (gets pre) true →
        ((∀ j < m, RefreshedAt shown (gets pre + 1 + j) false) ∧
          RefreshedAt shown (gets pre + 1 + m) true ↔ m + 1 = 101)) := by
  have hrun := fun calls => (thread_simulates build env).run calls (packs_fresh env)
  refine ⟨fun calls => ?_, fun pre post => ?_, fun pre m post => ?_⟩
  · obtain ⟨t, ht, -⟩ := hrun calls
    refine ⟨_, t, ht, fun i hi => ?_⟩
    rw [exists_refreshed_iff, List.map_take, List.map_drop, map_refreshed_run]
    exact Countdown.window _ (Nat.zero_le _) (hi.trans_eq (length_run_input env calls))
  · obtain ⟨t, ht, -⟩ := hrun (pre ++ .flushCurrentCpuId :: post)
    refine ⟨_, t, ht, fun hlen => ?_⟩
    rw [length_run_input env, ← count_input] at hlen
    rw [exists_refreshed_iff, List.map_take, List.map_drop, map_refreshed_run, ← count_input]
    rw [List.map_append] at hlen ⊢
    exact Countdown.flush_window hlen
  · obtain ⟨t, ht, -⟩ := hrun (pre ++ (List.replicate (m + 2) .getCurrentCoreId ++ post))
    refine ⟨_, t, ht, ?_⟩
    simp only [refreshedAt_iff, ← count_input pre]
    have hbs := map_refreshed_run env (pre ++ (List.replicate (m + 2) .getCurrentCoreId ++ post))
    rw [List.map_append, List.map_append,
      List.map_replicate] at hbs
    intro hfire
    rw [Countdown.gap_iff hbs.symm hfire, refreshPeriod]
    omega

/-- The refreshes among the first `n` results. -/
theorem refreshes_take (env : Env) (calls : List Call) (n : ℕ) :
    refreshes ((((unpacked env).run calls .fresh).1).take n) =
      Countdown.fires
        ((((Countdown.machine refreshPeriod).run (calls.map Call.input) 0).1).take n) := by
  rw [refreshes, List.map_take, map_refreshed_run]

/-- Flushing only makes the cached id fresher. Let `calls'` be `calls` with extra flushes
put in, with whatever native answers. After any number of gets the run of `calls'` has
refreshed at least as often, and its `k`-th refresh is at no later get. -/
theorem flush_refreshes_no_later (build : Build) (env env' : Env) {calls calls' : List Call}
    (hins : Inserted (· = .flushCurrentCpuId) calls calls') :
    ∃ shown t shown' t', (thread build env).run calls .fresh = .ok (shown, t) ∧
      (thread build env').run calls' .fresh = .ok (shown', t') ∧
      (∀ n, refreshes (shown.take n) ≤ refreshes (shown'.take n)) ∧
      ∀ i, RefreshedAt shown i true → ∃ j ≤ i, RefreshedAt shown' j true ∧
        refreshes (shown'.take j) = refreshes (shown.take i) := by
  obtain ⟨t, ht, -⟩ := (thread_simulates build env).run calls (packs_fresh env)
  obtain ⟨t', ht', -⟩ := (thread_simulates build env').run calls' (packs_fresh env')
  have hinput : Inserted (· = .flush) (calls.map Call.input) (calls'.map Call.input) :=
    hins.map Call.input fun i hi => by subst hi; rfl
  have hcoupled : Countdown.Coupled refreshPeriod 0 0 0 0 :=
    ⟨Nat.zero_le _, Nat.zero_le _, rfl, Or.inr ⟨rfl, le_rfl⟩⟩
  have hdom := Countdown.dominance (by decide) hinput hcoupled
  simp only [Nat.zero_add] at hdom
  refine ⟨_, t, _, t', ht, ht', fun n => ?_, fun i hi => ?_⟩
  · rw [refreshes_take, refreshes_take]
    exact hdom n
  · rw [refreshedAt_iff, map_refreshed_run] at hi
    obtain ⟨j, hj, hfire, hk⟩ := Countdown.kth_fire_le hdom hi
    refine ⟨j, hj, ?_, ?_⟩
    · rw [refreshedAt_iff, map_refreshed_run]
      exact hfire
    · rw [refreshes_take, refreshes_take]
      exact hk

/-- Thread 7 on four cores, on another one at each refresh. -/
def movingEnv : Env where
  coreCount := ⟨4, by decide, by decide⟩
  currentManagedThreadId := ⟨7, by decide⟩
  pal n := some (.ofNat (n % 4))

/-- Two gets on a Debug build, without and with a flush between them. -/
theorem flush_between_two_gets :
    ∃ shown t shown' t',
      (thread .debug movingEnv).run [.getCurrentCoreId, .getCurrentCoreId] .fresh =
        .ok (shown, t) ∧
      (thread .debug movingEnv).run
        [.getCurrentCoreId, .flushCurrentCpuId, .getCurrentCoreId] .fresh = .ok (shown', t') ∧
      (∀ n, refreshes (shown.take n) ≤ refreshes (shown'.take n)) ∧
      ∀ i, RefreshedAt shown i true → ∃ j ≤ i, RefreshedAt shown' j true ∧
        refreshes (shown'.take j) = refreshes (shown.take i) :=
  flush_refreshes_no_later .debug movingEnv movingEnv
    (.keep _ (.extra rfl (.keep _ .nil)))

/-! ## What freshness costs -/

/-- The flushes among the calls. -/
def flushes (calls : List Call) : ℕ :=
  calls.count .flushCurrentCpuId

theorem count_input_flush (calls : List Call) :
    (calls.map Call.input).count .flush = flushes calls := by
  induction calls with
  | nil => rfl
  | cons i calls ih => cases i <;> simp [flushes, Call.input, ih]

/-- The native calls of a run are the firings of its countdown. -/
theorem unpacked_run_nativeCalls_eq (env : Env) (calls : List Call) :
    ((unpacked env).run calls .fresh).2.nativeCalls =
      Countdown.fires ((Countdown.machine refreshPeriod).run (calls.map Call.input) 0).1 := by
  rw [unpacked_run_nativeCalls calls (Unpacked.latest_fresh env), refreshes, map_refreshed_run]
  exact Nat.zero_add _

/-- A native call serves at most 101 gets, and each but the last serves 101 if no flush cuts
it short. -/
theorem exists_run_nativeCalls (build : Build) (env : Env) (calls : List Call) :
    ∃ shown t, (thread build env).run calls .fresh = .ok (shown, t) ∧
      gets calls ≤ 101 * t.nativeCalls ∧
      101 * t.nativeCalls ≤ gets calls + 100 * (flushes calls + 1) := by
  obtain ⟨t, ht, hpacks⟩ := (thread_simulates build env).run calls (packs_fresh env)
  have hcalls := hpacks.2.trans (unpacked_run_nativeCalls_eq env calls)
  have hle := Countdown.ticks_le (r := refreshPeriod) (calls.map Call.input) (Nat.zero_le _)
  have hge := Countdown.fires_le (r := refreshPeriod) (calls.map Call.input) (Nat.zero_le _)
  rw [← hcalls, count_input] at hle hge
  rw [count_input_flush] at hge
  unfold refreshPeriod at hle hge
  exact ⟨_, t, ht, by omega, by omega⟩

/-- A thread makes one native call for each 101 gets, rounded up, and at most one more for
each flush. -/
theorem nativeCalls_bounds (build : Build) (env : Env) (calls : List Call) :
    ∃ shown t shown₀ t₀, (thread build env).run calls .fresh = .ok (shown, t) ∧
      (thread build env).run (.replicate (gets calls) .getCurrentCoreId) .fresh =
        .ok (shown₀, t₀) ∧
      gets calls ≤ 101 * t.nativeCalls ∧
      101 * t.nativeCalls ≤ gets calls + 100 * (flushes calls + 1) ∧
      t₀.nativeCalls = (gets calls + 100) / 101 ∧
      t₀.nativeCalls ≤ t.nativeCalls ∧ t.nativeCalls ≤ t₀.nativeCalls + flushes calls := by
  obtain ⟨shown, t, ht, hle, hge⟩ := exists_run_nativeCalls build env calls
  obtain ⟨shown₀, t₀, ht₀, hle₀, hge₀⟩ :=
    exists_run_nativeCalls build env (.replicate (gets calls) .getCurrentCoreId)
  have hgets : gets (.replicate (gets calls) .getCurrentCoreId) = gets calls :=
    List.count_replicate_self
  have hflushes : flushes (.replicate (gets calls) .getCurrentCoreId) = 0 :=
    List.count_eq_zero.mpr fun h => absurd (List.eq_of_mem_replicate h) nofun
  rw [hgets] at hle₀
  rw [hgets, hflushes] at hge₀
  refine ⟨shown, t, shown₀, t₀, ht, ht₀, hle, hge, ?_, ?_, ?_⟩ <;> omega

end Cpu

end SpreadsNative
