import SpreadsNative.Cpu
import SpreadsNative.PackedWord
import Mathlib.Algebra.Order.Ring.Int

/-!
# The packed word refines an id and a countdown

`unpacked` says what the cache is for : no id yet, or the id of the last refresh with a
countdown. `thread_simulates` : on every build a thread's calls succeed, show what
`unpacked` shows, and keep the word the packing of its state (`Packs`), so the decrement
never overflows and never borrows from the id.

The packing of a cache is unique (`Packs.unique`), so the builds end in the same word.
-/

namespace SpreadsNative

open PackedWord

namespace Cpu

/-! ## The abstract cache -/

/-- The id `RefreshCurrentCoreId` starts from at the thread's `n`-th native call. -/
def rawId (env : Env) (n : ℕ) : Int32 :=
  if getCpuNumber (env.pal n) < 0 then env.currentManagedThreadId.val else getCpuNumber (env.pal n)

/-- The normalised id : the remainder by `CoreCount`. -/
def normalizedId (env : Env) (n : ℕ) : Int32 :=
  .ofInt ((rawId env n).toInt % env.coreCount.val.toInt)

/-- A cache : no id yet, or the last id and a countdown. -/
inductive Cache where
  | empty
  | cached (lastId : Int32) (countdown : ℕ)
  deriving DecidableEq

/-- The countdown. An empty cache is one that is due. -/
def Cache.countdown : Cache → ℕ
  | .empty => 0
  | .cached _ c => c

/-- `RefreshRate` as a number of calls. -/
def refreshPeriod : ℕ := 100

/-- A cache, and how often it was refreshed. -/
structure Unpacked where
  cache : Cache
  nativeCalls : ℕ
  deriving DecidableEq

/-- The cache of a new thread. -/
def Unpacked.fresh : Unpacked where
  cache := .empty
  nativeCalls := 0

/-- The cache just refreshed. -/
def Unpacked.refresh (env : Env) (a : Unpacked) : Unpacked where
  cache := .cached (normalizedId env a.nativeCalls) refreshPeriod
  nativeCalls := a.nativeCalls + 1

/-- One call on an unpacked cache. -/
def Unpacked.call (env : Env) (a : Unpacked) : Call → List Got × Unpacked
  | .getCurrentCoreId =>
    match a.cache with
    | .cached lastId (c + 1) => ([⟨lastId, false⟩], { a with cache := .cached lastId c })
    | _ => ([⟨normalizedId env a.nativeCalls, true⟩], a.refresh env)
  | .flushCurrentCpuId =>
    match a.cache with
    | .cached lastId c => ([], { a with cache := .cached lastId (c % 2) })
    | .empty => ([], a)

/-- The abstract machine. -/
def unpacked (env : Env) : Machine Unpacked Call Got where
  step := Unpacked.call env

/-! ## Ids -/

theorem CoreCount.toInt_pos (n : CoreCount) : 0 < n.val.toInt :=
  Int32.lt_iff_toInt_lt.mp n.pos

theorem CoreCount.toInt_le (n : CoreCount) : n.val.toInt ≤ 128 :=
  Int32.le_iff_toInt_le.mp n.le

theorem toInt_rawId_nonneg (env : Env) (n : ℕ) : 0 ≤ (rawId env n).toInt := by
  unfold rawId
  split_ifs with h
  · exact (Int32.lt_iff_toInt_lt.mp env.currentManagedThreadId.pos).le
  · rw [Int32.lt_iff_toInt_lt] at h
    exact not_lt.mp h

theorem toInt_normalizedId (env : Env) (n : ℕ) :
    (normalizedId env n).toInt = (rawId env n).toInt % env.coreCount.val.toInt := by
  have hpos := env.coreCount.toInt_pos
  have hle := env.coreCount.toInt_le
  have h0 := Int.emod_nonneg (rawId env n).toInt hpos.ne'
  have h1 := Int.emod_lt_of_pos (rawId env n).toInt hpos
  exact Int32.toInt_ofInt_of_le (by omega) (by omega)

/-- A valid array index : `0 ≤ id < CoreCount`. -/
def ValidIndex (n : CoreCount) (id : Int32) : Prop :=
  0 ≤ id ∧ id < n.val

theorem validIndex_iff {n : CoreCount} {id : Int32} :
    ValidIndex n id ↔ 0 ≤ id.toInt ∧ id.toInt < n.val.toInt := by
  unfold ValidIndex
  rw [Int32.le_iff_toInt_le, Int32.lt_iff_toInt_lt]
  rfl

/-- A normalised id is a valid index. -/
theorem validIndex_normalizedId (env : Env) (n : ℕ) :
    ValidIndex env.coreCount (normalizedId env n) := by
  have hpos := env.coreCount.toInt_pos
  rw [validIndex_iff, toInt_normalizedId]
  exact ⟨Int.emod_nonneg _ hpos.ne', Int.emod_lt_of_pos _ hpos⟩

/-- A valid index is small enough to be shifted. -/
theorem ValidIndex.toNat_lt {n : CoreCount} {id : Int32} (h : ValidIndex n id) :
    id.toBitVec.toNat < 128 := by
  rw [validIndex_iff] at h
  have hle := n.toInt_le
  have hlt : 2 * id.toBitVec.toNat < 2 ^ 32 := BitVec.toInt_pos_iff.mp h.1
  have heq := BitVec.toInt_eq_toNat_of_lt hlt
  rw [Int32.toInt_toBitVec] at heq
  omega

/-- `RefreshCurrentCoreId` folds with a modulo only from `CoreCount` up, which is the
remainder everywhere. -/
theorem refreshCurrentCoreId_fst (env : Env) (t : Thread) :
    (refreshCurrentCoreId env t).1 = normalizedId env t.nativeCalls := by
  have h0 := toInt_rawId_nonneg env t.nativeCalls
  change (if rawId env t.nativeCalls ≥ env.coreCount.val then
    rawId env t.nativeCalls % env.coreCount.val else rawId env t.nativeCalls) = _
  rw [← Int32.toInt_inj, toInt_normalizedId]
  split_ifs with h
  · rw [Int32.toInt_mod, Int.tmod_eq_emod_of_nonneg h0]
  · rw [ge_iff_le, Int32.le_iff_toInt_le, not_le] at h
    rw [Int.emod_eq_of_lt h0 h]

/-! ## The packing -/

/-- The word has bits above the countdown. -/
theorem cacheShift_lt : 16 < 32 := by
  omega

/-- The word packs the cache. -/
def PacksWord (n : CoreCount) : Cache → Int32 → Prop
  | .empty, word => word = 0
  | .cached lastId c, word =>
    ValidIndex n lastId ∧ c ≤ refreshPeriod ∧
      hi 16 word.toBitVec = lastId.toBitVec.toNat ∧ lo 16 word.toBitVec = c

/-- The thread packs the unpacked cache. -/
def Packs (env : Env) (a : Unpacked) (t : Thread) : Prop :=
  PacksWord env.coreCount a.cache t.currentProcessorIdCache ∧ t.nativeCalls = a.nativeCalls

/-- A new thread packs the empty cache. -/
theorem packs_fresh (env : Env) : Packs env .fresh .fresh :=
  ⟨rfl, rfl⟩

theorem PacksWord.lo_eq {n : CoreCount} {a : Cache} {word : Int32} (h : PacksWord n a word) :
    lo 16 word.toBitVec = a.countdown := by
  cases a with
  | empty =>
    unfold PacksWord at h
    subst h
    exact lo_zero
  | cached lastId c => exact h.2.2.2

theorem PacksWord.hi_lt {n : CoreCount} {a : Cache} {word : Int32} (h : PacksWord n a word) :
    hi 16 word.toBitVec < 128 := by
  cases a with
  | empty =>
    unfold PacksWord at h
    subst h
    exact hi_zero.trans_lt (Nat.succ_pos 127)
  | cached lastId c =>
    rw [h.2.2.1]
    exact h.1.toNat_lt

/-- The refresh test reads the countdown. -/
theorem and_cacheCountDownMask_eq_zero_iff (word : Int32) :
    word &&& cacheCountDownMask = 0 ↔ lo 16 word.toBitVec = 0 := by
  rw [← and_lowMask_eq_zero_iff cacheShift_lt, ← Int32.toBitVec_inj, Int32.toBitVec_and]
  rfl

/-- The cached path reads the id. -/
theorem PacksWord.shiftRight_eq {n : CoreCount} {lastId word : Int32} {c : ℕ}
    (h : PacksWord n (.cached lastId c) word) : word >>> cacheShift = lastId := by
  have hhi : hi 16 word.toBitVec < 2 ^ (32 - 1 - 16) := h.hi_lt.trans (by decide)
  rw [← Int32.toBitVec_inj, ← BitVec.toNat_inj,
    show (word >>> cacheShift).toBitVec = word.toBitVec.sshiftRight 16 by simp [cacheShift],
    toNat_sshiftRight cacheShift_lt hhi, h.2.2.1]

/-- A packing of a cache never overflows when decremented. -/
theorem PacksWord.decrement {n : CoreCount} {a : Cache} {word : Int32} (h : PacksWord n a word)
    (build : Build) : build.decrement word = .ok (word - 1) := by
  cases build with
  | release => rfl
  | debug =>
    have hne : word ≠ Int32.minValue := by
      rintro rfl
      exact absurd h.hi_lt (by decide)
    exact if_neg hne

/-- The decrement takes one off the countdown and keeps the id. -/
theorem PacksWord.sub_one {n : CoreCount} {lastId word : Int32} {c : ℕ}
    (h : PacksWord n (.cached lastId (c + 1)) word) :
    PacksWord n (.cached lastId c) (word - 1) := by
  obtain ⟨hid, hc, hhi, hlo⟩ := h
  have hne : lo 16 word.toBitVec ≠ 0 := by omega
  refine ⟨hid, by omega, ?_, ?_⟩ <;> rw [Int32.toBitVec_sub, Int32.toBitVec_one]
  · rw [hi_sub_one cacheShift_lt hne, hhi]
  · rw [lo_sub_one cacheShift_lt hne, hlo]
    rfl

/-- A flush keeps the id and the parity of the countdown. -/
theorem PacksWord.flush {n : CoreCount} {lastId word : Int32} {c : ℕ}
    (h : PacksWord n (.cached lastId c) word) :
    PacksWord n (.cached lastId (c % 2)) (word &&& (~~~cacheCountDownMask ||| 1)) := by
  obtain ⟨hid, hc, hhi, hlo⟩ := h
  have hm : (1#32).toNat < 2 ^ 16 := by decide
  have hmask : (word &&& (~~~cacheCountDownMask ||| 1)).toBitVec =
      word.toBitVec &&& keepMask 32 16 1#32 := rfl
  refine ⟨hid, (Nat.mod_le c 2).trans hc, ?_, ?_⟩ <;> rw [hmask]
  · rw [hi_and_keepMask cacheShift_lt _ hm, hhi]
  · rw [lo_and_keepMask cacheShift_lt _ hm, hlo]
    exact Nat.and_one_is_mod c

/-- The refresh packs the id above a full countdown. -/
theorem packsWord_refresh {n : CoreCount} {id : Int32} (hid : ValidIndex n id) :
    PacksWord n (.cached id refreshPeriod)
      (((id <<< cacheShift) &&& Int32.maxValue) ||| refreshRate) := by
  have hy : id.toBitVec.toNat < 2 ^ (32 - 1 - 16) := hid.toNat_lt.trans (by decide)
  have hm : refreshRate.toBitVec.toNat < 2 ^ 16 := by decide
  have hword : (((id <<< cacheShift) &&& Int32.maxValue) ||| refreshRate).toBitVec =
      (id.toBitVec <<< 16) &&& BitVec.intMax 32 ||| refreshRate.toBitVec := by
    simp only [Int32.toBitVec_or, Int32.toBitVec_and, Int32.toBitVec_shiftLeft]
    rfl
  refine ⟨hid, le_rfl, ?_, ?_⟩ <;> rw [hword]
  · exact hi_shiftLeft_or cacheShift_lt hy hm
  · rw [lo_shiftLeft_or cacheShift_lt hy hm]
    rfl

/-! ## The simulation -/

/-- `RefreshCurrentCoreId` leaves the packing of the refreshed cache, whatever the word
was. -/
theorem packs_refreshCurrentCoreId (env : Env) {a : Unpacked} {t : Thread}
    (h : t.nativeCalls = a.nativeCalls) :
    Packs env (a.refresh env) (refreshCurrentCoreId env t).2 := by
  have hid := refreshCurrentCoreId_fst env t
  refine ⟨?_, congrArg (· + 1) h⟩
  change PacksWord env.coreCount (.cached (normalizedId env a.nativeCalls) refreshPeriod)
    ((((refreshCurrentCoreId env t).1 <<< cacheShift) &&& Int32.maxValue) ||| refreshRate)
  rw [hid, h]
  exact packsWord_refresh (validIndex_normalizedId env _)

/-- A due cache is refreshed, from the decremented word. -/
theorem getCurrentCoreId_of_due (build : Build) (env : Env) {a : Unpacked} {t : Thread}
    (h : Packs env a t) (hdue : a.cache.countdown = 0) :
    Cpu.getCurrentCoreId build env t =
      .ok (refreshCurrentCoreId env
        { t with currentProcessorIdCache := t.currentProcessorIdCache - 1 }) := by
  have hzero : t.currentProcessorIdCache &&& cacheCountDownMask = 0 := by
    rw [and_cacheCountDownMask_eq_zero_iff, h.1.lo_eq, hdue]
  rw [Cpu.getCurrentCoreId, h.1.decrement build]
  exact if_pos hzero

/-- A cache that is not due is read. -/
theorem getCurrentCoreId_of_cached (build : Build) (env : Env) {a : Unpacked} {t : Thread}
    {lastId : Int32} {c : ℕ} (h : Packs env a t) (hc : a.cache = .cached lastId (c + 1)) :
    Cpu.getCurrentCoreId build env t =
      .ok (lastId, { t with currentProcessorIdCache := t.currentProcessorIdCache - 1 }) := by
  have hword := h.1
  rw [hc] at hword
  have hne : ¬ t.currentProcessorIdCache &&& cacheCountDownMask = 0 := by
    rw [and_cacheCountDownMask_eq_zero_iff, hword.lo_eq, Cache.countdown]
    omega
  rw [Cpu.getCurrentCoreId, h.1.decrement build, ← hword.shiftRight_eq]
  exact if_neg hne

/-- A refresh is one more native call. -/
@[simp] theorem refreshCurrentCoreId_nativeCalls (env : Env) (t : Thread) :
    (refreshCurrentCoreId env t).2.nativeCalls = t.nativeCalls + 1 :=
  rfl

theorem call_get_of_due (build : Build) (env : Env) {a : Unpacked} {t : Thread}
    (h : Packs env a t) (hdue : a.cache.countdown = 0) :
    ∃ t', call build env t .getCurrentCoreId =
        .ok ([⟨normalizedId env a.nativeCalls, true⟩], t') ∧ Packs env (a.refresh env) t' := by
  set t₁ : Thread := { t with currentProcessorIdCache := t.currentProcessorIdCache - 1 }
  refine ⟨(refreshCurrentCoreId env t₁).2, ?_, packs_refreshCurrentCoreId env h.2⟩
  have hid : (refreshCurrentCoreId env t₁).1 = normalizedId env a.nativeCalls := by
    rw [refreshCurrentCoreId_fst, ← h.2]
  simp [call, getCurrentCoreId_of_due build env h hdue, bind, Except.bind, pure, Except.pure, t₁,
    ← hid]

theorem call_get_of_cached (build : Build) (env : Env) {a : Unpacked} {t : Thread}
    {lastId : Int32} {c : ℕ} (h : Packs env a t) (hc : a.cache = .cached lastId (c + 1)) :
    ∃ t', call build env t .getCurrentCoreId = .ok ([⟨lastId, false⟩], t') ∧
      Packs env { a with cache := .cached lastId c } t' := by
  have hword := h.1
  rw [hc] at hword
  refine ⟨{ t with currentProcessorIdCache := t.currentProcessorIdCache - 1 }, ?_,
    hword.sub_one, h.2⟩
  simp [call, getCurrentCoreId_of_cached build env h hc, bind, Except.bind, pure, Except.pure]

theorem call_flush (build : Build) (env : Env) {a : Unpacked} {t : Thread} (h : Packs env a t) :
    ∃ t', call build env t .flushCurrentCpuId = .ok ([], t') ∧
      Packs env (a.call env .flushCurrentCpuId).2 t' := by
  refine ⟨_, rfl, ?_⟩
  obtain ⟨cache, n⟩ := a
  cases cache with
  | empty =>
    refine ⟨?_, h.2⟩
    have hword : t.currentProcessorIdCache = 0 := h.1
    rw [Unpacked.call, PacksWord, flushCurrentCpuId, hword]
    rfl
  | cached lastId c => exact ⟨h.1.flush, h.2⟩

/-- On every build a thread's calls succeed, show what the unpacked cache shows, and
keep the word its packing. -/
theorem thread_simulates (build : Build) (env : Env) :
    (thread build env).Simulates (unpacked env) (Packs env) where
  step {a t} i h := by
    cases i with
    | flushCurrentCpuId =>
      obtain ⟨t', ht', h'⟩ := call_flush build env h
      refine ⟨t', ht'.trans ?_, h'⟩
      rcases a with ⟨_ | _, _⟩ <;> rfl
    | getCurrentCoreId =>
      rcases a with ⟨_ | ⟨lastId, _ | c⟩, n⟩
      · exact call_get_of_due build env h rfl
      · exact call_get_of_due build env h rfl
      · exact call_get_of_cached build env h rfl

/-- A cache has one packing. -/
theorem PacksWord.unique {n : CoreCount} {a : Cache} {word word' : Int32} (h : PacksWord n a word)
    (h' : PacksWord n a word') : word = word' := by
  cases a with
  | empty => exact Eq.trans h (Eq.symm h')
  | cached lastId c =>
    obtain ⟨-, -, hhi, hlo⟩ := h
    obtain ⟨-, -, hhi', hlo'⟩ := h'
    rw [← Int32.toBitVec_inj, ← BitVec.toNat_inj, toNat_eq 16 word.toBitVec,
      toNat_eq 16 word'.toBitVec, hhi, hlo, hhi', hlo']

theorem Packs.unique {env : Env} {a : Unpacked} {t t' : Thread} (h : Packs env a t)
    (h' : Packs env a t') : t = t' := by
  obtain ⟨word, n⟩ := t
  obtain ⟨word', n'⟩ := t'
  obtain rfl : word = word' := h.1.unique h'.1
  obtain rfl : n = n' := h.2.trans h'.2.symm
  rfl

end Cpu

end SpreadsNative
