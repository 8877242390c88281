import Mathlib.Data.List.Basic
import Mathlib.Algebra.Order.Ring.Nat
import Mathlib.Algebra.BigOperators.Group.List.Basic
import Mathlib.Logic.Function.Basic

/-!
# Machines with outputs

A `Machine` is total and deterministic : a step takes an input and emits a list of
outputs. A `Fallible` machine may stop a step with an error. `Fallible.Simulates`
relates the two : from related states every step of the fallible machine succeeds, with
the outputs of the total one, and ends in related states. `Simulates.run` lifts this to
runs, so a property of the total machine's outputs is one of the fallible machine's.
`Fallible.length_run_eq_count` numbers the outputs of a run by its inputs.

`Machine.run_invariant` is the invariant rule, and `Machine.run_invariant_of_admissible`
the one for runs whose inputs obey a contract (`Machine.Admissible`).
`Machine.run_rel_of_admissible` relates the ends of such a run, and
`Machine.exists_run_of_step` finds the run of a second machine that it is. `Machine.Hom` maps
one total machine onto another, forgetting part of the state and of the outputs.
`Machine.run_potential` bounds what a run costs by what it is granted.

`pool` runs one machine per key, each on its own state, with `Simulates.pool` as its
simulation rule, and no key's run depends on the others (`Fallible.pool_run_ofKey`).
`Machine.foldl_ofKey_of_admissible` is the rule for what only one key's inputs change.
`roaming` runs one machine in surroundings that change between its inputs.
`Inserted` relates an input list to one with extra inputs put in anywhere.
-/

/-- A total deterministic machine. A step emits zero or more outputs. -/
structure Machine (σ ι ω : Type*) where
  /-- One step : the outputs, and the next state. -/
  step : σ → ι → List ω × σ

/-- A deterministic machine whose steps may fail. -/
structure Fallible (ε σ ι ω : Type*) where
  /-- One step : the outputs and the next state, or an error. -/
  step : σ → ι → Except ε (List ω × σ)

namespace Machine

variable {σ ι ω : Type*} (M : Machine σ ι ω)

/-- Run the inputs in order. The outputs of the steps are concatenated. -/
def run (M : Machine σ ι ω) : List ι → σ → List ω × σ
  | [], s => ([], s)
  | i :: is, s =>
    let r := M.run is (M.step s i).2
    ((M.step s i).1 ++ r.1, r.2)

@[simp] theorem run_nil (s : σ) : M.run [] s = ([], s) :=
  rfl

@[simp] theorem run_cons (i : ι) (is : List ι) (s : σ) :
    M.run (i :: is) s =
      ((M.step s i).1 ++ (M.run is (M.step s i).2).1, (M.run is (M.step s i).2).2) :=
  rfl

/-- A run of two input lists is a run of the second from where the first ends. -/
theorem run_append :
    ∀ (is js : List ι) (s : σ),
      M.run (is ++ js) s =
        ((M.run is s).1 ++ (M.run js (M.run is s).2).1, (M.run js (M.run is s).2).2)
  | [], js, s => by simp
  | i :: is, js, s => by simp [run_append is js]

/-- Every input of the run satisfies `G` in the state that it meets. -/
def Admissible (M : Machine σ ι ω) (G : σ → ι → Prop) : List ι → σ → Prop
  | [], _ => True
  | i :: is, s => G s i ∧ M.Admissible G is (M.step s i).2

theorem admissible_true : ∀ (is : List ι) (s : σ), M.Admissible (fun _ _ => True) is s
  | [], _ => trivial
  | _ :: is, _ => ⟨trivial, admissible_true is _⟩

theorem admissible_append {M : Machine σ ι ω} {G : σ → ι → Prop} {js : List ι} :
    ∀ {is : List ι} {s : σ}, M.Admissible G (is ++ js) s ↔
      M.Admissible G is s ∧ M.Admissible G js (M.run is s).2
  | [], _ => (and_iff_right trivial).symm
  | _ :: _, _ => (and_congr_right fun _ => admissible_append).trans and_assoc.symm

/-- A run may be restricted further by a condition on its inputs. -/
theorem Admissible.and_forall {M : Machine σ ι ω} {G : σ → ι → Prop} {Q : ι → Prop} :
    ∀ {is : List ι} {s : σ}, M.Admissible G is s → (∀ i ∈ is, Q i) →
      M.Admissible (fun s i => G s i ∧ Q i) is s
  | [], _, _, _ => trivial
  | i :: _, _, ⟨hi, his⟩, hq =>
    ⟨⟨hi, hq i List.mem_cons_self⟩,
      his.and_forall fun j hj => hq j (List.mem_cons_of_mem _ hj)⟩

/-- An invariant kept by every admissible step holds at the end of every admissible run,
and what every such step emits holds of all outputs. -/
theorem run_invariant_of_admissible {G : σ → ι → Prop} {Inv : σ → Prop} {P : ω → Prop}
    (hstep : ∀ s i, Inv s → G s i → Inv (M.step s i).2 ∧ ∀ o ∈ (M.step s i).1, P o) :
    ∀ (is : List ι) (s : σ), M.Admissible G is s → Inv s →
      Inv (M.run is s).2 ∧ ∀ o ∈ (M.run is s).1, P o
  | [], s, _, hs => ⟨hs, by simp⟩
  | i :: is, s, hg, hs => by
    obtain ⟨hi, his⟩ := hg
    obtain ⟨hs', ho⟩ := hstep s i hs hi
    obtain ⟨hend, hos⟩ := run_invariant_of_admissible hstep is _ his hs'
    refine ⟨hend, fun o hmem => ?_⟩
    rcases List.mem_append.mp hmem with h | h
    · exact ho o h
    · exact hos o h

/-- An invariant kept by every step holds at the end of every run, and what every step
from it emits holds of all outputs. -/
theorem run_invariant {Inv : σ → Prop} {P : ω → Prop}
    (hstep : ∀ s i, Inv s → Inv (M.step s i).2 ∧ ∀ o ∈ (M.step s i).1, P o)
    (is : List ι) (s : σ) (hs : Inv s) : Inv (M.run is s).2 ∧ ∀ o ∈ (M.run is s).1, P o :=
  M.run_invariant_of_admissible (fun s i hs _ => hstep s i hs) is s (M.admissible_true is s) hs

/-- A preorder that every admissible step stays in holds between the ends of every admissible
run. -/
theorem run_rel_of_admissible {G : σ → ι → Prop} {Inv : σ → Prop} {R : σ → σ → Prop}
    (hrefl : ∀ s, R s s) (htrans : ∀ {s s' s''}, R s s' → R s' s'' → R s s'')
    (hstep : ∀ s i, Inv s → G s i → Inv (M.step s i).2 ∧ R s (M.step s i).2) :
    ∀ (is : List ι) (s : σ), M.Admissible G is s → Inv s → R s (M.run is s).2
  | [], s, _, _ => hrefl s
  | i :: is, s, hg, hs => by
    obtain ⟨hi, his⟩ := hg
    obtain ⟨hs', hr⟩ := hstep s i hs hi
    exact htrans hr (run_rel_of_admissible hrefl htrans hstep is _ his hs')

/-- If under an invariant each admissible step, seen through `f`, is an admissible step of `N`
on an input that matches, then each admissible run is one of `N` on inputs that match. -/
theorem exists_run_of_step {σ' ι' ω' : Type*} {N : Machine σ' ι' ω'} {G : σ → ι → Prop}
    {G' : σ' → ι' → Prop} {Inv : σ → Prop} {f : σ → σ'} {T : ι → ι' → Prop}
    (hstep : ∀ s i, Inv s → G s i → Inv (M.step s i).2 ∧
      ∃ j, T i j ∧ G' (f s) j ∧ (N.step (f s) j).2 = f (M.step s i).2) :
    ∀ (is : List ι) (s : σ), M.Admissible G is s → Inv s →
      ∃ js, List.Forall₂ T is js ∧ N.Admissible G' js (f s) ∧
        (N.run js (f s)).2 = f (M.run is s).2
  | [], _, _, _ => ⟨[], .nil, trivial, rfl⟩
  | i :: is, s, hg, hs => by
    obtain ⟨hi, his⟩ := hg
    obtain ⟨hs', j, hij, hj, hjs⟩ := hstep s i hs hi
    obtain ⟨js, hmatch, hjs', hrun⟩ := exists_run_of_step hstep is _ his hs'
    rw [← hjs] at hjs' hrun
    exact ⟨j :: js, .cons hij hmatch, ⟨hj, hjs'⟩, hrun⟩

/-- Two machines that take the same admissible steps from the states with an invariant have
the same admissible runs. -/
theorem run_eq_of_admissible {N : Machine σ ι ω} {G : σ → ι → Prop} {Inv : σ → Prop}
    (hinv : ∀ s i, Inv s → G s i → Inv (M.step s i).2)
    (hstep : ∀ s i, Inv s → G s i → N.step s i = M.step s i) :
    ∀ (is : List ι) (s : σ), M.Admissible G is s → Inv s → N.run is s = M.run is s
  | [], _, _, _ => rfl
  | i :: is, s, hg, hs => by
    obtain ⟨hi, his⟩ := hg
    rw [run_cons, run_cons, hstep s i hs hi,
      run_eq_of_admissible hinv hstep is _ his (hinv s i hs hi)]

/-- If an invariant is kept and an input emits an output satisfying `Q` from every state
with it, every run with that input emits one. -/
theorem exists_mem_run {Inv : σ → Prop} {i : ι} {Q : ω → Prop}
    (hstep : ∀ s j, Inv s → Inv (M.step s j).2)
    (hemit : ∀ s, Inv s → ∃ o ∈ (M.step s i).1, Q o) :
    ∀ (is : List ι) (s : σ), Inv s → i ∈ is → ∃ o ∈ (M.run is s).1, Q o
  | j :: is, s, hs, hi => by
    rcases List.mem_cons.mp hi with rfl | hi
    · obtain ⟨o, ho, hq⟩ := hemit s hs
      exact ⟨o, List.mem_append_left _ ho, hq⟩
    · obtain ⟨o, ho, hq⟩ := exists_mem_run hstep hemit is _ (hstep s j hs) hi
      exact ⟨o, List.mem_append_right _ ho, hq⟩

/-- The potential rule. If under an invariant the cost of a step and the potential after it
are covered by the potential before it, the credit of the step's outputs and the budget of
its input, the same holds of whole runs. -/
theorem run_potential {Inv : σ → Prop} (Φ : σ → ℕ) (cost credit : ω → ℕ) (budget : ι → ℕ)
    (hinv : ∀ s i, Inv s → Inv (M.step s i).2)
    (hstep : ∀ s i, Inv s → ((M.step s i).1.map cost).sum + Φ (M.step s i).2 ≤
      Φ s + ((M.step s i).1.map credit).sum + budget i) :
    ∀ (is : List ι) (s : σ), Inv s →
      ((M.run is s).1.map cost).sum + Φ (M.run is s).2 ≤
        Φ s + ((M.run is s).1.map credit).sum + (is.map budget).sum
  | [], s, _ => by simp
  | i :: is, s, hs => by
    have hi := hstep s i hs
    have his := run_potential Φ cost credit budget hinv hstep is _ (hinv s i hs)
    simp only [run_cons, List.map_append, List.sum_append, List.map_cons, List.sum_cons]
    omega

/-- `f` maps the states of `M` to those of `N`, `g` the inputs and `h` the outputs. -/
structure Hom {σ' ι' ω' : Type*} (M : Machine σ ι ω) (N : Machine σ' ι' ω') (f : σ → σ')
    (g : ι → ι') (h : ω → ω') : Prop where
  step : ∀ s i, N.step (f s) (g i) = ((M.step s i).1.map h, f (M.step s i).2)

/-- A homomorphism maps runs to runs. -/
theorem Hom.run {σ' ι' ω' : Type*} {M : Machine σ ι ω} {N : Machine σ' ι' ω'} {f : σ → σ'}
    {g : ι → ι'} {h : ω → ω'} (H : Hom M N f g h) :
    ∀ (is : List ι) (s : σ), N.run (is.map g) (f s) = ((M.run is s).1.map h, f (M.run is s).2)
  | [], s => by simp
  | i :: is, s => by simp [H.step, H.run is]

end Machine

namespace Fallible

variable {ε σ ι ω : Type*} (C : Fallible ε σ ι ω)

/-- Run the inputs in order, stopping at the first error. -/
def run (C : Fallible ε σ ι ω) : List ι → σ → Except ε (List ω × σ)
  | [], s => .ok ([], s)
  | i :: is, s => do
    let (o, s') ← C.step s i
    let (os, s'') ← C.run is s'
    return (o ++ os, s'')

@[simp] theorem run_nil (s : σ) : C.run [] s = .ok ([], s) :=
  rfl

theorem run_cons_of_step {i : ι} {s s' : σ} {o : List ω} (h : C.step s i = .ok (o, s'))
    (is : List ι) : C.run (i :: is) s = (C.run is s').map fun r => (o ++ r.1, r.2) := by
  rw [run, h]
  cases hr : C.run is s' <;> simp [bind, Except.bind, hr, Except.map, pure, Except.pure]

theorem run_cons_eq_ok {i : ι} {is : List ι} {s s' : σ} {os : List ω}
    (h : C.run (i :: is) s = .ok (os, s')) :
    ∃ o s₁ os', C.step s i = .ok (o, s₁) ∧ C.run is s₁ = .ok (os', s') ∧ os = o ++ os' := by
  cases hi : C.step s i with
  | error e => simp [run, hi, bind, Except.bind] at h
  | ok r =>
    obtain ⟨o, s₁⟩ := r
    rw [C.run_cons_of_step hi] at h
    cases his : C.run is s₁ with
    | error e => simp [his, Except.map] at h
    | ok r =>
      obtain ⟨os', s₂⟩ := r
      simp only [his, Except.map, Except.ok.injEq, Prod.mk.injEq] at h
      obtain ⟨rfl, rfl⟩ := h
      exact ⟨o, s₁, os', rfl, his, rfl⟩

/-- If a step emits one output for the input `j` and none for any other, a run emits one for
each `j` in it. -/
theorem length_run_eq_count [DecidableEq ι] {C : Fallible ε σ ι ω} {j : ι}
    (hstep : ∀ {s i o s'}, C.step s i = .ok (o, s') → o.length = if i = j then 1 else 0) :
    ∀ {is : List ι} {s s' : σ} {os : List ω}, C.run is s = .ok (os, s') → os.length = is.count j
  | [], s, s', os, h => by
    obtain ⟨rfl, -⟩ := Prod.mk.inj (Except.ok.inj h)
    rfl
  | i :: is, s, s', os, h => by
    obtain ⟨o, s₁, os', hi, his, rfl⟩ := C.run_cons_eq_ok h
    rw [List.length_append, hstep hi, length_run_eq_count hstep his, List.count_cons, Nat.add_comm]
    simp only [beq_iff_eq]

/-- From related states every step of `C` succeeds, emits what `A` emits, and ends in
related states. -/
structure Simulates {α : Type*} (C : Fallible ε σ ι ω) (A : Machine α ι ω)
    (R : α → σ → Prop) : Prop where
  step : ∀ {a s} i, R a s → ∃ s', C.step s i = .ok ((A.step a i).1, s') ∧ R (A.step a i).2 s'

/-- From related states every run of `C` succeeds, emits what `A` emits, and ends in
related states. -/
theorem Simulates.run {α : Type*} {C : Fallible ε σ ι ω} {A : Machine α ι ω} {R : α → σ → Prop}
    (S : C.Simulates A R) : ∀ (is : List ι) {a : α} {s : σ}, R a s →
      ∃ s', C.run is s = .ok ((A.run is a).1, s') ∧ R (A.run is a).2 s'
  | [], _, s, h => ⟨s, rfl, h⟩
  | i :: is, a, s, h => by
    obtain ⟨s₁, hs₁, h₁⟩ := S.step i h
    obtain ⟨s₂, hs₂, h₂⟩ := S.run is h₁
    exact ⟨s₂, by rw [C.run_cons_of_step hs₁, hs₂]; rfl, h₂⟩

end Fallible

/-! ## Pools -/

section Pool

variable {κ ε σ α ι ω : Type*} [DecidableEq κ]

/-- One total machine per key, each on its own state. -/
def Machine.pool (M : κ → Machine σ ι ω) : Machine (κ → σ) (κ × ι) (κ × ω) where
  step s i :=
    let r := (M i.1).step (s i.1) i.2
    (r.1.map (i.1, ·), Function.update s i.1 r.2)

/-- One fallible machine per key, each on its own state. -/
def Fallible.pool (C : κ → Fallible ε σ ι ω) : Fallible ε (κ → σ) (κ × ι) (κ × ω) where
  step s i :=
    ((C i.1).step (s i.1) i.2).map fun r => (r.1.map (i.1, ·), Function.update s i.1 r.2)

/-- A step of one key changes no other key's state. -/
theorem Machine.pool_step_of_ne (M : κ → Machine σ ι ω) (s : κ → σ) (i : κ × ι) {k : κ}
    (hk : k ≠ i.1) : ((pool M).step s i).2 k = s k :=
  Function.update_of_ne hk _ _

@[simp] theorem Machine.pool_step_self (M : κ → Machine σ ι ω) (s : κ → σ) (i : κ × ι) :
    ((pool M).step s i).2 i.1 = ((M i.1).step (s i.1) i.2).2 :=
  Function.update_self _ _ _

/-- If each key's machine is simulated, so is the pool. -/
theorem Fallible.Simulates.pool {C : κ → Fallible ε σ ι ω} {A : κ → Machine α ι ω}
    {R : κ → α → σ → Prop} (S : ∀ k, (C k).Simulates (A k) (R k)) :
    (Fallible.pool C).Simulates (Machine.pool A) fun a s => ∀ k, R k (a k) (s k) where
  step {a s} i h := by
    obtain ⟨s', hs', h'⟩ := (S i.1).step i.2 (h i.1)
    refine ⟨Function.update s i.1 s', by simp only [Fallible.pool, hs']; rfl, fun k => ?_⟩
    rcases eq_or_ne k i.1 with rfl | hk
    · simpa using h'
    · rw [Machine.pool_step_of_ne A a i hk, Function.update_of_ne hk]
      exact h k

/-- Each key's machine keeps its own invariant, so the pool keeps all of them. -/
theorem Machine.pool_keeps {M : κ → Machine σ ι ω} {Inv : κ → σ → Prop}
    (hstep : ∀ k s i, Inv k s → Inv k ((M k).step s i).2) (s : κ → σ) (i : κ × ι)
    (hs : ∀ k, Inv k (s k)) (k : κ) : Inv k (((Machine.pool M).step s i).2 k) := by
  rcases eq_or_ne k i.1 with rfl | hk
  · rw [pool_step_self]
    exact hstep _ _ i.2 (hs _)
  · rw [pool_step_of_ne M s i hk]
    exact hs k

/-- What each key's machine emits under its invariant, the pool emits for that key. -/
theorem Machine.pool_invariant {M : κ → Machine σ ι ω} {Inv : κ → σ → Prop} {P : κ → ω → Prop}
    (hstep : ∀ k s i, Inv k s → Inv k ((M k).step s i).2 ∧ ∀ o ∈ ((M k).step s i).1, P k o)
    (s : κ → σ) (i : κ × ι) (hs : ∀ k, Inv k (s k)) :
    (∀ k, Inv k (((Machine.pool M).step s i).2 k)) ∧
      ∀ o ∈ ((Machine.pool M).step s i).1, P o.1 o.2 := by
  refine ⟨pool_keeps (fun k s i hs => (hstep k s i hs).1) s i hs, fun o ho => ?_⟩
  obtain ⟨x, hx, rfl⟩ := List.mem_map.mp ho
  exact (hstep i.1 (s i.1) i.2 (hs i.1)).2 x hx

/-- What concerns key `k`, in order. -/
def ofKey {β : Type*} (k : κ) (ps : List (κ × β)) : List β :=
  ps.filterMap fun p => if p.1 = k then some p.2 else none

@[simp] theorem ofKey_nil {β : Type*} (k : κ) : ofKey k ([] : List (κ × β)) = [] :=
  rfl

@[simp] theorem ofKey_cons_self {β : Type*} (k : κ) (b : β) (ps : List (κ × β)) :
    ofKey k ((k, b) :: ps) = b :: ofKey k ps := by
  simp [ofKey]

theorem ofKey_cons_of_ne {β : Type*} {k : κ} {p : κ × β} (h : p.1 ≠ k) (ps : List (κ × β)) :
    ofKey k (p :: ps) = ofKey k ps := by
  simp [ofKey, h]

theorem ofKey_append {β : Type*} (k : κ) (ps qs : List (κ × β)) :
    ofKey k (ps ++ qs) = ofKey k ps ++ ofKey k qs :=
  List.filterMap_append

theorem ofKey_map_self {β : Type*} (k : κ) (bs : List β) : ofKey k (bs.map (k, ·)) = bs := by
  induction bs with
  | nil => rfl
  | cons b bs ih => rw [List.map_cons, ofKey_cons_self, ih]

theorem ofKey_map_of_ne {β : Type*} {k k' : κ} (h : k' ≠ k) (bs : List β) :
    ofKey k (bs.map (k', ·)) = [] := by
  induction bs with
  | nil => rfl
  | cons b bs ih => rw [List.map_cons, ofKey_cons_of_ne h, ih]

/-- Keys do not affect each other : if the pool's run succeeds, each key's own run on its
own inputs succeeds, with the outputs the pool emits for that key, and ends in its state. -/
theorem Fallible.pool_run_ofKey {C : κ → Fallible ε σ ι ω} (k : κ) :
    ∀ {is : List (κ × ι)} {s s' : κ → σ} {os : List (κ × ω)},
      (Fallible.pool C).run is s = .ok (os, s') →
      (C k).run (ofKey k is) (s k) = .ok (ofKey k os, s' k)
  | [], s, s', os, h => by
    obtain ⟨rfl, rfl⟩ := Prod.mk.inj (Except.ok.inj h)
    rfl
  | (k', i) :: is, s, s', os, h => by
    obtain ⟨o, s₁, os', hi, his, rfl⟩ := Fallible.run_cons_eq_ok _ h
    have ih := pool_run_ofKey k his
    cases hk' : (C k').step (s k') i with
    | error e => simp [Fallible.pool, hk', Except.map] at hi
    | ok r =>
      simp only [Fallible.pool, hk', Except.map, Except.ok.injEq, Prod.mk.injEq] at hi
      obtain ⟨rfl, rfl⟩ := hi
      rw [ofKey_append]
      by_cases hk : k' = k
      · subst hk
        rw [Function.update_self] at ih
        rw [ofKey_cons_self, ofKey_map_self, Fallible.run_cons_of_step _ hk', ih]
        rfl
      · rw [Function.update_of_ne (Ne.symm hk)] at ih
        rw [ofKey_cons_of_ne hk, ofKey_map_of_ne hk, ih]
        rfl

/-- What only the inputs of key `k` change is what these inputs make of it. -/
theorem Machine.foldl_ofKey_of_admissible {α : Type*} {M : Machine σ (κ × ι) ω}
    {G : σ → κ × ι → Prop} {f : σ → α} {g : α → ι → α} (k : κ)
    (hself : ∀ s i, G s (k, i) → f (M.step s (k, i)).2 = g (f s) i)
    (hother : ∀ s i, i.1 ≠ k → G s i → f (M.step s i).2 = f s) :
    ∀ (is : List (κ × ι)) (s : σ), M.Admissible G is s →
      f (M.run is s).2 = (ofKey k is).foldl g (f s)
  | [], _, _ => rfl
  | (j, i) :: is, s, hg => by
    obtain ⟨hi, his⟩ := hg
    have ih := foldl_ofKey_of_admissible k hself hother is _ his
    rw [run_cons, ih]
    by_cases hj : j = k
    · subst hj
      rw [ofKey_cons_self, List.foldl_cons, hself s i hi]
    · rw [ofKey_cons_of_ne hj, hother s (j, i) hj hi]

end Pool

/-! ## Changing surroundings -/

/-- A machine in surroundings `η` is moved to others, or gets an input. -/
inductive Roam (η ι : Type*) where
  | move (e : η)
  | input (i : ι)
  deriving DecidableEq

section Roaming

variable {η ε σ α ι ω : Type*}

/-- One total machine whose surroundings change. An output is tagged with those it was
emitted in. -/
def Machine.roaming (M : η → Machine σ ι ω) : Machine (η × σ) (Roam η ι) (η × ω) where
  step s
    | .move e => ([], e, s.2)
    | .input i =>
      let r := (M s.1).step s.2 i
      (r.1.map (s.1, ·), s.1, r.2)

/-- One fallible machine whose surroundings change. -/
def Fallible.roaming (C : η → Fallible ε σ ι ω) : Fallible ε (η × σ) (Roam η ι) (η × ω) where
  step s
    | .move e => .ok ([], e, s.2)
    | .input i => ((C s.1).step s.2 i).map fun r => (r.1.map (s.1, ·), s.1, r.2)

/-- If the machine is simulated in all surroundings by one relation, so is the one that
moves. -/
theorem Fallible.Simulates.roaming {C : η → Fallible ε σ ι ω} {A : η → Machine α ι ω}
    {R : α → σ → Prop} (S : ∀ e, (C e).Simulates (A e) R) :
    (Fallible.roaming C).Simulates (Machine.roaming A) fun a s => a.1 = s.1 ∧ R a.2 s.2 where
  step {a s} i h := by
    obtain ⟨e, a⟩ := a
    obtain ⟨e', s⟩ := s
    obtain ⟨rfl, hR⟩ := h
    cases i with
    | move e' => exact ⟨_, rfl, rfl, hR⟩
    | input i =>
      obtain ⟨s', hs', h'⟩ := (S e).step i hR
      exact ⟨(e, s'), by simp only [Fallible.roaming, hs']; rfl, rfl, h'⟩

end Roaming

/-! ## Inserted inputs -/

/-- `Inserted P is js` : `js` is `is` with extra inputs satisfying `P` put in. -/
inductive Inserted {ι : Type*} (P : ι → Prop) : List ι → List ι → Prop
  | nil : Inserted P [] []
  | keep (i : ι) {is js : List ι} : Inserted P is js → Inserted P (i :: is) (i :: js)
  | extra {i : ι} {is js : List ι} : P i → Inserted P is js → Inserted P is (i :: js)

/-- Inserting commutes with a map of the inputs. -/
theorem Inserted.map {ι κ : Type*} {P : ι → Prop} {Q : κ → Prop} (f : ι → κ)
    (hf : ∀ i, P i → Q (f i)) {is js : List ι} (h : Inserted P is js) :
    Inserted Q (is.map f) (js.map f) := by
  induction h with
  | nil => exact .nil
  | keep i _ ih => exact .keep (f i) ih
  | extra hi _ ih => exact .extra (hf _ hi) ih
