import Mathlib.Data.Nat.ModEq
import Mathlib.Data.Int.CardIntervalMod
import Mathlib.Algebra.BigOperators.Fin
import Mathlib.Data.Fintype.BigOperators
import Mathlib.Data.Fintype.EquivFin
import Mathlib.Order.Fin.Basic
import Mathlib.Tactic.Ring

/-!
# Arcs on a circle of numbers

Arc `i` is the `len i` consecutive numbers from `start i`, taken modulo `N`. `place` sends
the `x`-th number of arc `i` to its remainder. Two arcs share no place iff the second
starts no earlier than the first ends and ends before the first comes round again
(`disjoint_iff`), so a family of arcs in order of their starts has all its places
distinct iff each two of its arcs are so placed (`place_injective_iff`). Arcs of `N` numbers
together then cover the circle (`exists_place_eq`).

An arc of any length winds evenly round the circle : any two places are on it equally
often, or one of them once more (`card_residue_le`).
-/

open Finset

namespace Arcs

/-- Two nonempty arcs, the second starting `d` after the first, share no place. -/
theorem disjoint_iff {N d l m : ℕ} (a : ℕ) (hN : 0 < N) (hl : 0 < l) (hm : 0 < m) :
    (∀ x < l, ∀ y < m, (a + x) % N ≠ (a + d + y) % N) ↔ l ≤ d % N ∧ d % N + m ≤ N := by
  have hr := Nat.mod_lt d hN
  have hplace : ∀ x y, (a + x) % N = (a + d + y) % N ↔ x % N = (d % N + y) % N := by
    intro x y
    rw [Nat.add_assoc, Nat.mod_add_mod]
    exact ⟨fun h => Nat.ModEq.add_left_cancel' a h, fun h => Nat.ModEq.add_left a h⟩
  simp only [ne_eq, hplace]
  constructor
  · intro h
    refine ⟨?_, ?_⟩
    · -- else the first arc reaches the start of the second
      by_contra hlt
      exact h (d % N) (by omega) 0 hm (by rw [Nat.mod_mod, Nat.add_zero, Nat.mod_mod])
    · -- else the second arc comes round to the start of the first
      by_contra hlt
      refine h 0 hl (N - d % N) (by omega) ?_
      rw [Nat.add_sub_cancel' hr.le, Nat.zero_mod, Nat.mod_self]
  · rintro ⟨hle, hle'⟩ x hx y hy heq
    rw [Nat.mod_eq_of_lt (by omega), Nat.mod_eq_of_lt (by omega)] at heq
    omega

variable {k : ℕ} (N : ℕ) (start len : Fin k → ℕ)

/-- The place of the `x`-th number of arc `i`. -/
def place (p : (i : Fin k) × Fin (len i)) : ℕ :=
  (start p.1 + p.2) % N

variable {N start len}

/-- Arcs in order of their starts, none longer than the circle, have all their places
distinct iff each two do not overlap. -/
theorem place_injective_iff (hN : 0 < N) (hlen : ∀ i, 0 < len i) (hle : ∀ i, len i ≤ N)
    (hstart : Monotone start) :
    Function.Injective (place N start len) ↔
      ∀ i j, i < j → len i ≤ (start j - start i) % N ∧ (start j - start i) % N + len j ≤ N := by
  have hpair : ∀ i j, i < j →
      ((∀ x < len i, ∀ y < len j, (start i + x) % N ≠ (start j + y) % N) ↔
        len i ≤ (start j - start i) % N ∧ (start j - start i) % N + len j ≤ N) := by
    intro i j hij
    have hsub : start i + (start j - start i) = start j := Nat.add_sub_cancel' (hstart hij.le)
    rw [← disjoint_iff (start i) hN (hlen i) (hlen j), hsub]
  constructor
  · intro hinj i j hij
    rw [← hpair i j hij]
    intro x hx y hy heq
    have hp : (⟨i, x, hx⟩ : (i : Fin k) × Fin (len i)) = ⟨j, y, hy⟩ := hinj heq
    exact hij.ne (congrArg Sigma.fst hp)
  · rintro hdisj ⟨i, x, hx⟩ ⟨j, y, hy⟩ heq
    rcases lt_trichotomy i j with hij | rfl | hij
    · exact absurd heq ((hpair i j hij).mpr (hdisj i j hij) x hx y hy)
    · have hxy : x % N = y % N := Nat.ModEq.add_left_cancel' (start i) heq
      rw [Nat.mod_eq_of_lt (hx.trans_le (hle i)), Nat.mod_eq_of_lt (hy.trans_le (hle i))] at hxy
      subst hxy
      rfl
    · exact absurd heq.symm ((hpair j i hij).mpr (hdisj j i hij) y hy x hx)

/-- If the places are distinct and the arcs have `N` numbers in all, every place is taken. -/
theorem exists_place_eq (hN : 0 < N) (hinj : Function.Injective (place N start len))
    (hsum : ∑ i, len i = N) {v : ℕ} (hv : v < N) : ∃ p, place N start len p = v := by
  let f : (i : Fin k) × Fin (len i) → Fin N := fun p => ⟨place N start len p, Nat.mod_lt _ hN⟩
  have hf : Function.Injective f := fun p q h => hinj (Fin.mk.inj h)
  have hcard : Fintype.card ((i : Fin k) × Fin (len i)) = Fintype.card (Fin N) := by
    rw [Fintype.card_sigma, Fintype.card_fin, ← hsum]
    exact Finset.sum_congr rfl fun i _ => Fintype.card_fin (len i)
  obtain ⟨p, hp⟩ := ((Fintype.bijective_iff_injective_and_card f).mpr ⟨hf, hcard⟩).2 ⟨v, hv⟩
  exact ⟨p, Fin.mk.inj hp⟩

/-! ## Winding -/

/-- How many of `n` consecutive numbers from `f` have the remainder of `v`, as a count
of the numbers below `n`. -/
theorem card_residue_eq {N : ℕ} (hN : 0 < N) (f v n : ℕ) :
    #{i : Fin n | (f + i) % N = v % N} =
      n / N + if (v + (N - 1) * f) % N < n % N then 1 else 0 := by
  have hshift : f + (v + (N - 1) * f) = v + N * f := by
    have hf : (N - 1) * f + f = N * f := by
      rw [← Nat.succ_mul, Nat.succ_eq_add_one, Nat.sub_add_cancel hN]
    omega
  have hiff : ∀ i, (f + i) % N = v % N ↔ i ≡ v + (N - 1) * f [MOD N] := by
    intro i
    have hv : v % N = (f + (v + (N - 1) * f)) % N := by
      rw [hshift, Nat.add_mul_mod_self_left]
    rw [hv]
    exact ⟨fun h => Nat.ModEq.add_left_cancel' f h, fun h => Nat.ModEq.add_left f h⟩
  rw [← Nat.count_modEq_card _ hN, Nat.count_eq_card_filter_range, card_filter, card_filter,
    ← Fin.sum_univ_eq_sum_range fun i => if i ≡ v + (N - 1) * f [MOD N] then 1 else 0]
  simp only [hiff]

/-- Consecutive numbers spread evenly over the remainders. -/
theorem card_residue_le {N : ℕ} (f n : ℕ) {a b : ℕ} (ha : a < N) (hb : b < N) :
    #{i : Fin n | (f + i) % N = a} ≤ #{i : Fin n | (f + i) % N = b} + 1 := by
  have hN : 0 < N := by omega
  have hcard := fun v => card_residue_eq hN f v n
  have hca := hcard a
  have hcb := hcard b
  rw [Nat.mod_eq_of_lt ha] at hca
  rw [Nat.mod_eq_of_lt hb] at hcb
  rw [hca, hcb]
  split_ifs <;> omega

/-- The first `n` numbers have distinct remainders iff there are no more than `N`. -/
theorem residue_injective_iff {N n : ℕ} (hN : 0 < N) :
    Function.Injective (fun i : Fin n => (i : ℕ) % N) ↔ n ≤ N := by
  constructor
  · intro hinj
    by_contra hlt
    -- else `0` and `N` have one remainder
    have hN' : N < n := not_le.mp hlt
    have hsame := @hinj ⟨0, hN.trans hN'⟩ ⟨N, hN'⟩ ((Nat.zero_mod N).trans (Nat.mod_self N).symm)
    exact hN.ne (Fin.mk.inj hsame)
  · intro hle i j hij
    change (i : ℕ) % N = (j : ℕ) % N at hij
    rw [Nat.mod_eq_of_lt (i.isLt.trans_le hle), Nat.mod_eq_of_lt (j.isLt.trans_le hle)] at hij
    exact Fin.ext hij

end Arcs
