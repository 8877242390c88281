import Mathlib.Logic.Function.Basic
import Mathlib.Order.WellFounded
import Mathlib.Order.Basic

/-!
# Tables written through keys

A table has a value per slot, and is written through keys : a write through `k` puts its
value in slot `f k` (`write`). `Tracks g` says that a table, read at the slots `g k`,
holds what was last written through each key, and that no other slot has changed.

With distinct slots a table tracks its own writes (`tracks_write`). If the writer's slots
`f k` lie at or below the reader's `g k`, the two must agree on every key that is written
(`tracks_write_iff`) : the lowest slot where they do not would have to keep both its old
value and the value written there.
-/

namespace SlotTable

variable {κ σ ν : Type*} [DecidableEq σ]

/-- Write values through keys, in order. -/
def write (f : κ → σ) : List (κ × ν) → (σ → ν) → σ → ν
  | [], t => t
  | w :: ws, t => write f ws (Function.update t (f w.1) w.2)

/-- Slots that no write reaches keep their value. -/
theorem write_of_ne {f : κ → σ} {s : σ} :
    ∀ {ws : List (κ × ν)} {t : σ → ν}, (∀ w ∈ ws, f w.1 ≠ s) → write f ws t s = t s
  | [], _, _ => rfl
  | w :: ws, t, h => by
    rw [write, write_of_ne fun v hv => h v (List.mem_cons_of_mem _ hv),
      Function.update_of_ne (h w List.mem_cons_self).symm]

/-- Only the slots of the keys that are written matter. -/
theorem write_congr {f g : κ → σ} :
    ∀ {ws : List (κ × ν)} {t : σ → ν}, (∀ w ∈ ws, f w.1 = g w.1) → write f ws t = write g ws t
  | [], _, _ => rfl
  | w :: ws, t, h => by
    rw [write, write, h w List.mem_cons_self,
      write_congr fun v hv => h v (List.mem_cons_of_mem _ hv)]

variable [DecidableEq κ]

/-- The value last written through a key. -/
def lastWritten : List (κ × ν) → κ → Option ν
  | [], _ => none
  | w :: ws, k => (lastWritten ws k).or (if w.1 = k then some w.2 else none)

/-- The table `t'` is `t` with the writes put in the slots `g`, and nothing else. -/
structure Tracks (g : κ → σ) (ws : List (κ × ν)) (t t' : σ → ν) : Prop where
  written : ∀ k, t' (g k) = (lastWritten ws k).getD (t (g k))
  frame : ∀ s, (∀ w ∈ ws, g w.1 ≠ s) → t' s = t s

/-- With distinct slots, a slot holds what was last written through its key. -/
theorem write_apply {f : κ → σ} (hf : Function.Injective f) (k : κ) :
    ∀ (ws : List (κ × ν)) (t : σ → ν), write f ws t (f k) = (lastWritten ws k).getD (t (f k))
  | [], _ => rfl
  | w :: ws, t => by
    rw [write, write_apply hf k ws, lastWritten]
    cases lastWritten ws k with
    | some v => rfl
    | none =>
      by_cases hk : w.1 = k
      · subst hk
        simp
      · have hne : f k ≠ f w.1 := fun h => hk (hf h).symm
        simp [hk, hne]

/-- With distinct slots a table tracks its own writes. -/
theorem tracks_write {f : κ → σ} (hf : Function.Injective f) (ws : List (κ × ν)) (t : σ → ν) :
    Tracks f ws t (write f ws t) where
  written k := write_apply hf k ws t
  frame _ := write_of_ne

/-- What is written through a key was last written through it, or overwritten. -/
theorem exists_lastWritten {w : κ × ν} :
    ∀ {ws : List (κ × ν)}, w ∈ ws → ∃ v, lastWritten ws w.1 = some v
  | u :: ws, h => by
    rw [lastWritten]
    rcases List.mem_cons.mp h with rfl | h
    · cases lastWritten ws w.1 <;> simp
    · obtain ⟨v, hv⟩ := exists_lastWritten h
      exact ⟨v, by rw [hv]; rfl⟩

/-- Let the writer's slots lie at or below the reader's. Then the reader finds every
sequence of writes in place, whatever the table held, iff the two agree on every key that
is written. -/
theorem tracks_write_iff [LinearOrder σ] [WellFoundedLT σ] [Nontrivial ν] {f g : κ → σ}
    (hf : Function.Injective f) (hg : Function.Injective g) (hle : ∀ k, f k ≤ g k)
    (ws : List (κ × ν)) :
    (∀ t, Tracks g ws t (write f ws t)) ↔ ∀ w ∈ ws, f w.1 = g w.1 := by
  constructor
  · intro htracks
    suffices h : ∀ s, ∀ w ∈ ws, f w.1 = s → f w.1 = g w.1 from fun w hw => h _ w hw rfl
    intro s
    induction s using WellFoundedLT.induction with
    | ind s ih =>
      rintro w hw rfl
      by_contra hne
      -- no key that is written is read at the slot that `w` writes
      have hunread : ∀ u ∈ ws, g u.1 ≠ f w.1 := by
        intro u hu hgu
        rcases (hle u.1).lt_or_eq with hlt | heq
        · exact absurd (ih (f u.1) (hgu ▸ hlt) u hu rfl) hlt.ne
        · have hkey : u.1 = w.1 := hf (heq.trans hgu)
          exact hne (by rw [← hgu, hkey])
      obtain ⟨v, hv⟩ := exists_lastWritten hw
      obtain ⟨v', hv'⟩ := exists_ne v
      have hkept := (htracks fun _ => v').frame _ hunread
      rw [write_apply hf, hv] at hkept
      exact hv' hkept.symm
  · intro hagree t
    rw [write_congr hagree]
    exact tracks_write hg ws t

end SlotTable
