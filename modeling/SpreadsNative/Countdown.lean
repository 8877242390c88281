import SpreadsNative.Machine
import Mathlib.Algebra.Ring.Parity
import Mathlib.Algebra.Order.Ring.Nat
import Mathlib.Algebra.BigOperators.Group.List.Basic
import Mathlib.Algebra.Group.Action.Defs

/-!
# A countdown with a partial reset

A counter counts down from `r`. A `tick` at zero fires and starts over at `r`; any other
tick takes one off. A `flush` keeps the parity and drops the rest, so the counter
becomes `0` or `1`.

From a counter at `c` one of the next `c + 1` ticks fires, flushes or not
(`true_mem_take`). So with the counter at most `r` any `r + 1` ticks in a row have one
that fires (`window`), after a flush one of two does (`flush_window`), and with no flush
two firings are exactly `r + 1` ticks apart (`gap_iff`).

`dominance` : extra flushes never make the next firing later, if `r` is even. A flush is
not monotone in the counter, so this needs more than comparing counters. `Coupled`
relates two runs by their counters and the number of times each has fired : both counters
plus their counts have one parity, and the run with the extra flushes has fired more
often, or as often with its counter no higher.

`ticks_le` and `fires_le` bound the number of firings from both sides : each takes `r + 1`
ticks, or fewer by what flushes have dropped.
-/

namespace Countdown

/-- What a counter can be asked to do. -/
inductive Input where
  | tick
  | flush
  deriving DecidableEq

/-- One step of a counter with period `r`. A tick emits whether it fired. -/
def step (r c : ℕ) : Input → List Bool × ℕ
  | .tick => if c = 0 then ([true], r) else ([false], c - 1)
  | .flush => ([], c % 2)

/-- The counter with period `r`. -/
def machine (r : ℕ) : Machine ℕ Input Bool where
  step := step r

variable {r : ℕ}

@[simp] theorem step_tick_zero : (machine r).step 0 .tick = ([true], r) :=
  rfl

@[simp] theorem step_tick_succ (c : ℕ) : (machine r).step (c + 1) .tick = ([false], c) :=
  rfl

@[simp] theorem step_flush (c : ℕ) : (machine r).step c .flush = ([], c % 2) :=
  rfl

/-- A run emits one output per tick. -/
theorem length_run (r : ℕ) :
    ∀ (is : List Input) (c : ℕ), ((machine r).run is c).1.length = is.count .tick
  | [], _ => rfl
  | .flush :: is, c => by simp [length_run r is]
  | .tick :: is, 0 => by simp [length_run r is]
  | .tick :: is, c + 1 => by simp [length_run r is]

/-- From `c`, one of the first `c + 1` ticks fires. -/
theorem true_mem_take :
    ∀ (is : List Input) {c n : ℕ}, c < n → n ≤ ((machine r).run is c).1.length →
      true ∈ (((machine r).run is c).1).take n
  | [], c, n, hc, hn => by
    simp only [Machine.run_nil, List.length_nil] at hn
    omega
  | .flush :: is, c, n, hc, hn => by
    simp only [Machine.run_cons, step_flush, List.nil_append] at hn ⊢
    exact true_mem_take is ((Nat.mod_le c 2).trans_lt hc) hn
  | .tick :: is, 0, n + 1, _, _ => by simp
  | .tick :: is, c + 1, n + 1, hc, hn => by
    simp only [Machine.run_cons, step_tick_succ, List.singleton_append, List.length_cons,
      List.take_succ_cons] at hn ⊢
    exact List.mem_cons_of_mem _ (true_mem_take is (by omega) (by omega))

/-- Any `r + 1` ticks in a row have one that fires. -/
theorem window :
    ∀ (is : List Input) {c i : ℕ}, c ≤ r → i + (r + 1) ≤ ((machine r).run is c).1.length →
      true ∈ ((((machine r).run is c).1).drop i).take (r + 1)
  | is, c, 0, hc, hi => by
    rw [List.drop_zero]
    exact true_mem_take is (by omega) (by omega)
  | [], c, i + 1, _, hi => by
    simp only [Machine.run_nil, List.length_nil] at hi
    omega
  | .flush :: is, c, i + 1, hc, hi => by
    simp only [Machine.run_cons, step_flush, List.nil_append] at hi ⊢
    exact window is ((Nat.mod_le c 2).trans hc) hi
  | .tick :: is, 0, i + 1, _, hi => by
    simp only [Machine.run_cons, step_tick_zero, List.singleton_append, List.length_cons,
      List.drop_succ_cons] at hi ⊢
    exact window is le_rfl (by omega)
  | .tick :: is, c + 1, i + 1, hc, hi => by
    simp only [Machine.run_cons, step_tick_succ, List.singleton_append, List.length_cons,
      List.drop_succ_cons] at hi ⊢
    exact window is (by omega) (by omega)

/-- After a flush one of the next two ticks fires, whatever flushes come between. -/
theorem flush_window {pre post : List Input} {c : ℕ}
    (h : pre.count .tick + 2 ≤ ((machine r).run (pre ++ .flush :: post) c).1.length) :
    true ∈ ((((machine r).run (pre ++ .flush :: post) c).1).drop (pre.count .tick)).take 2 := by
  have hlen := length_run r pre c
  simp only [Machine.run_append, Machine.run_cons, step_flush, List.nil_append,
    List.length_append] at h ⊢
  rw [← hlen, List.drop_left]
  exact true_mem_take post (Nat.mod_lt _ Nat.two_pos) (by omega)

/-- With no flush the ticks from `c` first fire after exactly `c` others. -/
theorem first_fire_iff (post : List Input) :
    ∀ {m c : ℕ}, ((∀ j < m, ((machine r).run (List.replicate (m + 1) .tick ++ post) c).1[j]? =
        some false) ∧
      ((machine r).run (List.replicate (m + 1) .tick ++ post) c).1[m]? = some true) ↔ m = c
  | 0, 0 => by simp [List.replicate_succ]
  | 0, c + 1 => by simp [List.replicate_succ]
  | m + 1, 0 => by
    simp only [List.replicate_succ, List.cons_append, Machine.run_cons, step_tick_zero]
    constructor
    · rintro ⟨h, -⟩
      exact absurd (h 0 (Nat.succ_pos m)) (by simp)
    · intro h
      omega
  | m + 1, c + 1 => by
    have ih := first_fire_iff post (m := m) (c := c)
    rw [List.replicate_succ, List.cons_append, Machine.run_cons, step_tick_succ,
      List.singleton_append, List.getElem?_cons_succ, Nat.succ_inj, ← ih]
    refine and_congr ⟨fun h j hj => ?_, fun h j hj => ?_⟩ Iff.rfl
    · simpa using h (j + 1) (Nat.succ_lt_succ hj)
    · cases j with
      | zero => rfl
      | succ j => simpa using h j (Nat.lt_of_succ_lt_succ hj)

/-- After a tick that fires, with no flush between, the next one that does is the
`r + 1`-st from it. -/
theorem gap_iff {pre post : List Input} {m c : ℕ} {bs : List Bool}
    (hbs : ((machine r).run (pre ++ (List.replicate (m + 2) .tick ++ post)) c).1 = bs)
    (hfire : bs[pre.count .tick]? = some true) :
    ((∀ j < m, bs[pre.count .tick + 1 + j]? = some false) ∧
      bs[pre.count .tick + 1 + m]? = some true) ↔ m = r := by
  have hlen := length_run r pre c
  rw [Machine.run_append, List.replicate_succ, List.cons_append, Machine.run_cons] at hbs
  generalize ((machine r).run pre c).2 = c' at hbs
  subst hbs
  have hskip : ∀ (xs ys : List Bool) (b : Bool) (j : ℕ), xs.length = pre.count .tick →
      (xs ++ ([b] ++ ys))[pre.count .tick + 1 + j]? = ys[j]? := by
    intro xs ys b j hxs
    rw [List.getElem?_append_right (by omega), ← hxs,
      show xs.length + 1 + j - xs.length = j + 1 by omega, List.singleton_append,
      List.getElem?_cons_succ]
  cases c' with
  | succ c' => simp [← hlen] at hfire
  | zero =>
    rw [step_tick_zero, hskip _ _ _ _ hlen, ← first_fire_iff (r := r) post]
    simp only [hskip _ _ _ _ hlen]

/-! ## Extra flushes -/

/-- Counter `c` of a run that has fired `k` times, counter `c'` of one with more flushes
that has fired `k'` times. -/
structure Coupled (r k c k' c' : ℕ) : Prop where
  le : c ≤ r
  le' : c' ≤ r
  parity : (c + k) % 2 = (c' + k') % 2
  ahead : k < k' ∨ k = k' ∧ c' ≤ c

theorem Coupled.flush {k c k' c' : ℕ} (h : Coupled r k c k' c') :
    Coupled r k (c % 2) k' (c' % 2) := by
  obtain ⟨hle, hle', hpar, hahead⟩ := h
  refine ⟨by omega, by omega, by omega, ?_⟩
  -- with equal counts the counters have one parity, so a common flush makes them equal
  omega

theorem Coupled.extra_flush {k c k' c' : ℕ} (h : Coupled r k c k' c') :
    Coupled r k c k' (c' % 2) := by
  obtain ⟨hle, hle', hpar, hahead⟩ := h
  exact ⟨hle, by omega, by omega, by omega⟩

/-- The number of firings a list of outputs reports. -/
def fires (bs : List Bool) : ℕ :=
  bs.count true

@[simp] theorem fires_nil : fires [] = 0 :=
  rfl

@[simp] theorem fires_true_cons (bs : List Bool) : fires (true :: bs) = fires bs + 1 := by
  simp [fires]

@[simp] theorem fires_false_cons (bs : List Bool) : fires (false :: bs) = fires bs := by
  simp [fires]

theorem Coupled.tick (hr : Even r) {k c k' c' : ℕ} (h : Coupled r k c k' c') :
    Coupled r (k + fires ((machine r).step c .tick).1) ((machine r).step c .tick).2
      (k' + fires ((machine r).step c' .tick).1) ((machine r).step c' .tick).2 := by
  obtain ⟨hle, hle', hpar, hahead⟩ := h
  have hr2 : r % 2 = 0 := Nat.even_iff.mp hr
  cases c <;> cases c' <;> simp only [step_tick_zero, step_tick_succ, fires_true_cons,
    fires_false_cons, fires_nil] <;> constructor <;> omega

/-- Extra flushes never make a firing later : after the same number of ticks the run with
more flushes has fired at least as often. -/
theorem dominance (hr : Even r) {is js : List Input} (h : Inserted (· = .flush) is js) :
    ∀ {k c k' c' : ℕ}, Coupled r k c k' c' → ∀ n,
      k + fires (((machine r).run is c).1.take n) ≤
        k' + fires (((machine r).run js c').1.take n) := by
  induction h with
  | nil =>
    intro k c k' c' hc n
    have := hc.ahead
    simp only [Machine.run_nil, List.take_nil, fires_nil]
    omega
  | @extra i is js hi _ ih =>
    intro k c k' c' hc n
    subst hi
    simpa using ih hc.extra_flush n
  | @keep i is js _ ih =>
    intro k c k' c' hc n
    cases i with
    | flush => simpa using ih hc.flush n
    | tick =>
      cases n with
      | zero =>
        have := hc.ahead
        simp only [List.take_zero, fires_nil]
        omega
      | succ n =>
        have := ih (hc.tick hr) n
        cases c <;> cases c' <;> simp at this ⊢ <;> omega

/-! ## The `k`-th firing -/

/-- If the first `n` outputs report more than `k` firings, the `k`-th is among them. -/
theorem exists_of_lt_fires {bs : List Bool} {k : ℕ} :
    ∀ {n : ℕ}, k < fires (bs.take n) →
      ∃ j < n, bs[j]? = some true ∧ fires (bs.take j) = k
  | 0, h => by simp at h
  | n + 1, h => by
    by_cases hk : k < fires (bs.take n)
    · obtain ⟨j, hj, hb⟩ := exists_of_lt_fires hk
      exact ⟨j, by omega, hb⟩
    · rw [List.take_add_one, fires, List.count_append] at h
      change k < fires (bs.take n) + _ at h
      cases hn : bs[n]? with
      | none => simp [hn] at h; omega
      | some b =>
        cases b
        · simp [hn] at h; omega
        · simp only [hn, Option.toList_some, List.count_singleton_self] at h
          exact ⟨n, by omega, hn, by omega⟩

/-- If `bs'` has fired at least as often as `bs` after every number of ticks, its `k`-th
firing is no later. -/
theorem kth_fire_le {bs bs' : List Bool} (h : ∀ n, fires (bs.take n) ≤ fires (bs'.take n))
    {i : ℕ} (hi : bs[i]? = some true) :
    ∃ j ≤ i, bs'[j]? = some true ∧ fires (bs'.take j) = fires (bs.take i) := by
  have hlt : fires (bs.take i) < fires (bs'.take (i + 1)) := by
    refine lt_of_lt_of_le ?_ (h (i + 1))
    rw [List.take_add_one, hi]
    simp [fires]
  obtain ⟨j, hj, hb, hk⟩ := exists_of_lt_fires hlt
  exact ⟨j, by omega, hb, hk⟩

/-! ## How often it fires -/

/-- The counter is at most the period. -/
theorem step_le {c : ℕ} (hc : c ≤ r) (i : Input) : ((machine r).step c i).2 ≤ r := by
  cases i with
  | flush => exact (Nat.mod_le c 2).trans hc
  | tick =>
    cases c with
    | zero => exact le_rfl
    | succ c => exact (Nat.le_succ c).trans hc

theorem sum_map_eq_count {α : Type*} [DecidableEq α] (a : α) (n : ℕ) (xs : List α) :
    (xs.map fun x => if x = a then n else 0).sum = n * xs.count a := by
  rw [List.sum_map_eq_nsmul_single a _ fun x hx _ => if_neg hx, if_pos rfl, smul_eq_mul,
    Nat.mul_comm]

/-- A tick takes one off the counter, or fires and adds `r`. -/
theorem ticks_le (is : List Input) {c : ℕ} (hc : c ≤ r) :
    is.count .tick + ((machine r).run is c).2 ≤
      c + (r + 1) * fires ((machine r).run is c).1 := by
  have hstep : ∀ c i, c ≤ r →
      (((machine r).step c i).1.map fun _ => 1).sum + ((machine r).step c i).2 ≤
        c + (((machine r).step c i).1.map fun b => if b = true then r + 1 else 0).sum + 0 := by
    intro c i _
    cases i with
    | flush => simp [Nat.mod_le]
    | tick => cases c <;> simp <;> omega
  have hrun := (machine r).run_potential (fun c => c) (fun _ => 1)
    (fun b => if b = true then r + 1 else 0) (fun _ => 0) (fun c i hc => step_le hc i) hstep is c hc
  rw [sum_map_eq_count, ← fires] at hrun
  simpa [length_run] using hrun

/-- Each firing takes `r + 1` ticks, less what the counter starts with and at most `r` for
each flush. -/
theorem fires_le (is : List Input) {c : ℕ} (hc : c ≤ r) :
    c + (r + 1) * fires ((machine r).run is c).1 ≤
      is.count .tick + r * is.count .flush + r := by
  have hstep : ∀ c i, c ≤ r →
      (((machine r).step c i).1.map fun b => if b = true then r + 1 else 0).sum +
          (r - ((machine r).step c i).2) ≤
        (r - c) + (((machine r).step c i).1.map fun _ => 1).sum +
          (if i = .flush then r else 0) := by
    intro c i hc
    cases i with
    | flush =>
      simp only [step_flush, List.map_nil, List.sum_nil, if_pos]
      omega
    | tick =>
      cases c
      · simp
      · simp
        omega
  have hrun := (machine r).run_potential (fun c => r - c)
    (fun b => if b = true then r + 1 else 0) (fun _ => 1) (fun i => if i = .flush then r else 0)
    (fun c i hc => step_le hc i) hstep is c hc
  rw [sum_map_eq_count, sum_map_eq_count, List.map_const', List.sum_replicate_nat, length_run,
    mul_one, ← fires] at hrun
  omega

end Countdown
