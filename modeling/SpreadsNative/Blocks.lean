import Mathlib.Logic.Function.Basic
import Mathlib.Order.Basic

/-!
# Blocks in a heap

A heap has blocks, each with an address and a number of usable bytes. `View` is how a heap
is looked at. An allocator's operation may make a block, resize one or free one (`Op`), and
`Op.Meets` says when a step of the heap is such an operation : what it changes, and that all
other blocks stay as they are. Address zero stands for no block.

Clients hold blocks. A `Ledger` says what each of them knows of its blocks : their owners,
their sizes, and the bytes that were written to them. It is kept by the calls and the
addresses they return alone (`Ledger.apply`), without looking at the heap.

`Backs` : every block of the ledger is a block of the heap that is large enough and has the
bytes that were written, every block of the heap is in the ledger, and no two blocks
overlap. Every operation on a block of the ledger keeps it (`Backs.apply`), and changes no
other block of the ledger (`Backs.apply_of_ne`).
-/

namespace Blocks

/-- How a heap is looked at : the usable bytes of the block at each address, and the byte
at each address. -/
structure View (H β : Type*) where
  usable : H → ℕ → Option ℕ
  byte : H → ℕ → β

/-- An entry of a table after one entry is changed is the new one or an old one. -/
theorem update_eq_some {α : Type*} {t : ℕ → Option α} {q p : ℕ} {x : Option α} {b : α}
    (h : Function.update t q x p = some b) : p = q ∧ x = some b ∨ p ≠ q ∧ t p = some b := by
  by_cases hp : p = q
  · subst hp
    rw [Function.update_self] at h
    exact Or.inl ⟨rfl, h⟩
  · rw [Function.update_of_ne hp] at h
    exact Or.inr ⟨hp, h⟩

/-- Blocks of `n` bytes at `p` and of `m` bytes at `q` do not overlap. -/
def Apart (p n q m : ℕ) : Prop :=
  p + n ≤ q ∨ q + m ≤ p

theorem Apart.symm {p n q m : ℕ} (h : Apart p n q m) : Apart q m p n :=
  Or.symm h

/-- No two blocks of a table overlap. -/
def Separate (t : ℕ → Option ℕ) : Prop :=
  ∀ p q n m, p ≠ q → t p = some n → t q = some m → Apart p n q m

theorem Separate.sub {t t' : ℕ → Option ℕ} (ht : Separate t)
    (hsub : ∀ p n, t' p = some n → t p = some n) : Separate t' :=
  fun p q n m hpq hp hq => ht p q n m hpq (hsub p n hp) (hsub q m hq)

/-- A table stays separate if it gets a block that is apart from those that stay. -/
theorem Separate.insert {t t' : ℕ → Option ℕ} (ht : Separate t) {q n : ℕ} (hq : t' q = some n)
    (hstay : ∀ o m, o ≠ q → t' o = some m → t o = some m ∧ Apart q n o m) : Separate t' := by
  intro o o' m m' hne ho ho'
  by_cases hoq : o = q
  · subst hoq
    obtain rfl := Option.some.inj (hq.symm.trans ho)
    exact (hstay o' m' (Ne.symm hne) ho').2
  · by_cases hoq' : o' = q
    · subst hoq'
      obtain rfl := Option.some.inj (hq.symm.trans ho')
      exact (hstay o m hne ho).2.symm
    · exact ht o o' m m' hne (hstay o m hoq ho).1 (hstay o' m' hoq' ho').1

section

variable {H β : Type*} (V : View H β) (h h' : H)

/-- The block at `p` is the same in both heaps. -/
def View.Same (p : ℕ) : Prop :=
  V.usable h' p = V.usable h p ∧
    ∀ n, V.usable h p = some n → ∀ i < n, V.byte h' (p + i) = V.byte h (p + i)

variable {V h h'} in
theorem View.Same.trans {h'' : H} {p : ℕ} (hs : V.Same h h' p) (hs' : V.Same h' h'' p) :
    V.Same h h'' p := by
  refine ⟨hs'.1.trans hs.1, fun n hn i hi => ?_⟩
  rw [hs'.2 n (hs.1.trans hn) i hi, hs.2 n hn i hi]

/-- A new block of at least `size` bytes at `p`. -/
structure View.Allocates (size : ℕ) (fill : Option β) (p : ℕ) : Prop where
  fresh : V.usable h p = none
  room : ∃ n, size ≤ n ∧ V.usable h' p = some n ∧
    ∀ q m, V.usable h q = some m → Apart p n q m
  filled : ∀ b, fill = some b → ∀ i < size, V.byte h' (p + i) = b
  others : ∀ q ≠ p, V.Same h h' q

/-- The block at `p` is now one of at least `size` bytes at `q`, with the bytes it had. -/
structure View.Resizes (p size q : ℕ) : Prop where
  place : q = p ∨ V.usable h q = none ∧ V.usable h' p = none
  room : ∃ n, size ≤ n ∧ V.usable h' q = some n ∧
    ∀ o m, o ≠ p → V.usable h o = some m → Apart q n o m
  copied : ∀ n, V.usable h p = some n → ∀ i < n, i < size → V.byte h' (q + i) = V.byte h (p + i)
  others : ∀ o, o ≠ p → o ≠ q → V.Same h h' o

/-- The block at `p` is freed. -/
structure View.Releases (p : ℕ) : Prop where
  gone : V.usable h' p = none
  others : ∀ q ≠ p, V.Same h h' q

/-- The blocks at the addresses in `P` are freed. -/
structure View.ReleasesAll (P : ℕ → Prop) : Prop where
  gone : ∀ p, P p → V.usable h' p = none
  others : ∀ p, ¬ P p → V.Same h h' p

/-- Byte `i` of the block at `p` is written. -/
structure View.Stores (p i : ℕ) (b : β) : Prop where
  usable : V.usable h' = V.usable h
  written : V.byte h' (p + i) = b
  others : ∀ a ≠ p + i, V.byte h' a = V.byte h a

end

/-! ## Operations -/

/-- What a call asks of an allocator. -/
inductive Op (κ β : Type*) where
  /-- A new block, filled with a byte or not. -/
  | new (owner : κ) (size : ℕ) (fill : Option β)
  /-- Another size for the block at `p`. `freesOnNull` : it is freed if there is none. -/
  | resize (p : ℕ) (owner : κ) (size : ℕ) (freesOnNull : Bool)
  | free (p : ℕ)
  /-- Nothing : a call that must fail, or has nothing to do. -/
  | nothing

section

variable {H β : Type*} (V : View H β) (h h' : H)

/-- Nothing is done, and null is returned. -/
def View.Nothing (q : ℕ) : Prop :=
  q = 0 ∧ ∀ p, V.Same h h' p

/-- There is a new block at `q`, or `q` is null and nothing is done. -/
def View.New (size : ℕ) (fill : Option β) (q : ℕ) : Prop :=
  V.Nothing h h' q ∨ q ≠ 0 ∧ V.Allocates h h' size fill q

/-- The block at `p` is resized and now at `q`, or `q` is null. -/
def View.Resized (p size : ℕ) (freesOnNull : Bool) (q : ℕ) : Prop :=
  (if freesOnNull then q = 0 ∧ V.Releases h h' p else V.Nothing h h' q) ∨
    q ≠ 0 ∧ V.Resizes h h' p size q

/-! The same of a heap that is part of a larger one. -/

/-- A heap looked at through a part of it. -/
def View.comap {G : Type*} (f : G → H) : View G β where
  usable g := V.usable (f g)
  byte g := V.byte (f g)

section

variable {V} {G : Type*} {f : G → H} {g g' : G}

theorem View.New.comap {size : ℕ} {fill : Option β} {q : ℕ}
    (hq : V.New (f g) (f g') size fill q) : (V.comap f).New g g' size fill q := by
  rcases hq with hnull | ⟨hne, hnew⟩
  · exact Or.inl hnull
  · exact Or.inr ⟨hne, hnew.fresh, hnew.room, hnew.filled, hnew.others⟩

theorem View.Releases.comap {p : ℕ} (hp : V.Releases (f g) (f g') p) :
    (V.comap f).Releases g g' p :=
  ⟨hp.gone, hp.others⟩

theorem View.Resizes.comap {p size q : ℕ} (hq : V.Resizes (f g) (f g') p size q) :
    (V.comap f).Resizes g g' p size q :=
  ⟨hq.place, hq.room, hq.copied, hq.others⟩

theorem View.Resized.comap {p size : ℕ} {freesOnNull : Bool} {q : ℕ}
    (hq : V.Resized (f g) (f g') p size freesOnNull q) :
    (V.comap f).Resized g g' p size freesOnNull q := by
  rcases hq with hnull | ⟨hne, hq⟩
  · refine Or.inl ?_
    split_ifs at hnull ⊢
    · exact ⟨hnull.1, hnull.2.comap⟩
    · exact hnull
  · exact Or.inr ⟨hne, hq.comap⟩

end

/-- The step from `h` to `h'` that returns `q` is the operation. -/
def Op.Meets {κ : Type*} (q : ℕ) : Op κ β → Prop
  | .new _ size fill => V.New h h' size fill q
  | .resize p _ size freesOnNull => V.Resized h h' p size freesOnNull q
  | .free p => V.Releases h h' p
  | .nothing => V.Nothing h h' q

end

/-- Who holds the block that an operation makes. -/
def Op.owner {κ β : Type*} : Op κ β → Option κ
  | .new owner _ _ | .resize _ owner _ _ => some owner
  | .free _ | .nothing => none

/-- The size of the block that an operation makes. -/
def Op.size {κ β : Type*} : Op κ β → Option ℕ
  | .new _ size _ | .resize _ _ size _ => some size
  | .free _ | .nothing => none

/-- What a client knows of a block : who holds it, its size, and the bytes written to it. -/
structure Block (κ β : Type*) where
  owner : κ
  size : ℕ
  known : ℕ → Option β

/-- The blocks that clients hold. -/
abbrev Ledger (κ β : Type*) : Type _ :=
  ℕ → Option (Block κ β)

/-- A block after it is resized. -/
def Block.resize {κ β : Type*} (b : Block κ β) (owner : κ) (size : ℕ) : Block κ β where
  owner := owner
  size := size
  known i := if i < b.size ∧ i < size then b.known i else none

/-- A block after byte `i` is written. -/
def Block.store {κ β : Type*} (b : Block κ β) (i : ℕ) (x : β) : Block κ β :=
  { b with known := Function.update b.known i (some x) }

/-- The ledger after an operation that returned `q`. -/
def Ledger.apply {κ β : Type*} (l : Ledger κ β) (q : ℕ) : Op κ β → Ledger κ β
  | .new owner size fill =>
    if q = 0 then l else Function.update l q (some ⟨owner, size, fun _ => fill⟩)
  | .resize p owner size freesOnNull =>
    if q = 0 then if freesOnNull then Function.update l p none else l
    else Function.update (Function.update l p none) q ((l p).map fun b => b.resize owner size)
  | .free p => Function.update l p none
  | .nothing => l

/-- An entry of the ledger after an operation is an old one, or the one that the operation
made for its owner, of its size. -/
theorem Ledger.apply_eq_some {κ β : Type*} {l : Ledger κ β} {q p : ℕ} {op : Op κ β}
    {b : Block κ β} (h : l.apply q op p = some b) :
    l p = some b ∨ p = q ∧ q ≠ 0 ∧ op.owner = some b.owner ∧ op.size = some b.size := by
  cases op with
  | new owner size fill =>
    simp only [Ledger.apply] at h
    split_ifs at h with hq
    · exact Or.inl h
    · rcases update_eq_some h with ⟨hp, hb⟩ | ⟨-, hb⟩
      · obtain rfl := Option.some.inj hb
        exact Or.inr ⟨hp, hq, rfl, rfl⟩
      · exact Or.inl hb
  | resize o owner size freesOnNull =>
    have hold : Function.update l o none p = some b → l p = some b := by
      intro h
      rcases update_eq_some h with ⟨-, hb⟩ | ⟨-, hb⟩
      · exact absurd hb nofun
      · exact hb
    simp only [Ledger.apply] at h
    split_ifs at h with hq
    · exact Or.inl (hold h)
    · exact Or.inl h
    · rcases update_eq_some h with ⟨hp, hb⟩ | ⟨-, hb⟩
      · obtain ⟨b', -, rfl⟩ := Option.map_eq_some_iff.mp hb
        exact Or.inr ⟨hp, hq, rfl, rfl⟩
      · exact Or.inl (hold hb)
  | free o =>
    rcases update_eq_some h with ⟨-, hb⟩ | ⟨-, hb⟩
    · exact absurd hb nofun
    · exact Or.inl hb
  | nothing => exact Or.inl h

/-- The ledger after byte `i` of the block at `p` is written. -/
def Ledger.store {κ β : Type*} (l : Ledger κ β) (p i : ℕ) (x : β) : Ledger κ β :=
  Function.update l p ((l p).map fun b => b.store i x)

/-- The block an operation is about. -/
def Op.subject {κ β : Type*} : Op κ β → Option ℕ
  | .resize p _ _ _ | .free p => some p
  | .new _ _ _ | .nothing => none

/-- The block an operation is about, if it is about one, is in the ledger. -/
def Op.Held {κ β : Type*} (l : Ledger κ β) (op : Op κ β) : Prop :=
  ∀ p, op.subject = some p → ∃ b, l p = some b

/-! ## What the heap owes the ledger -/

section

variable {H κ β : Type*} (V : View H β) (h h' : H) (l l' : Ledger κ β)

/-- At `p` the heap has the block of the ledger, with the bytes written to it, or neither
has one. -/
structure BackedAt (p : ℕ) : Prop where
  block : ∀ b, l p = some b → ∃ n, b.size ≤ n ∧ V.usable h p = some n ∧
    ∀ i < b.size, ∀ x, b.known i = some x → V.byte h (p + i) = x
  entry : ∀ n, V.usable h p = some n → ∃ b, l p = some b

/-- The heap has the blocks of the ledger, and no others, and no two of them overlap. -/
structure Backs : Prop where
  backedAt : ∀ p, BackedAt V h l p
  separate : Separate (V.usable h)

variable {V h h' l l'}

theorem backedAt_none {p : ℕ} (hl : l p = none) (hu : V.usable h p = none) :
    BackedAt V h l p where
  block _ hb := absurd (hl.symm.trans hb) nofun
  entry _ hn := absurd (hu.symm.trans hn) nofun

theorem backedAt_some {p n : ℕ} {b : Block κ β} (hl : l p = some b)
    (hu : V.usable h p = some n) (hle : b.size ≤ n)
    (hbytes : ∀ i < b.size, ∀ x, b.known i = some x → V.byte h (p + i) = x) :
    BackedAt V h l p where
  block b' hb := by
    obtain rfl := Option.some.inj (hl.symm.trans hb)
    exact ⟨n, hle, hu, hbytes⟩
  entry _ _ := ⟨b, hl⟩

/-- A block that is the same, with the same entry, is still backed. -/
theorem BackedAt.same {p : ℕ} (hp : BackedAt V h l p) (hsame : V.Same h h' p)
    (hl : l' p = l p) : BackedAt V h' l' p where
  block b hb := by
    obtain ⟨n, hle, hn, hbytes⟩ := hp.block b (hl.symm.trans hb)
    refine ⟨n, hle, hsame.1.trans hn, fun i hi x hx => ?_⟩
    rw [hsame.2 n hn i (Nat.lt_of_lt_of_le hi hle)]
    exact hbytes i hi x hx
  entry n hn := by
    rw [hl]
    exact hp.entry n (hsame.1.symm.trans hn)

/-- An empty heap backs the empty ledger. -/
theorem backs_empty (hempty : ∀ p, V.usable h p = none) :
    Backs V h (fun _ => none : Ledger κ β) where
  backedAt p := backedAt_none rfl (hempty p)
  separate p _ _ _ _ hp := absurd ((hempty p).symm.trans hp) nofun

variable (hl : Backs V h l)

include hl

theorem Backs.usable_ne_none {p : ℕ} {b : Block κ β} (hp : l p = some b) :
    V.usable h p ≠ none := by
  obtain ⟨n, -, hn, -⟩ := (hl.backedAt p).block b hp
  exact fun hnone => absurd (hnone.symm.trans hn) nofun

theorem Backs.usable_eq_none {p : ℕ} (hp : l p = none) : V.usable h p = none := by
  by_contra hu
  obtain ⟨n, hn⟩ := Option.ne_none_iff_exists'.mp hu
  obtain ⟨b, hb⟩ := (hl.backedAt p).entry n hn
  exact absurd (hp.symm.trans hb) nofun

theorem Backs.same (hsame : ∀ p, V.Same h h' p) : Backs V h' l where
  backedAt p := (hl.backedAt p).same (hsame p) rfl
  separate := hl.separate.sub fun p _ hp => (hsame p).1.symm.trans hp

/-- A new block is entered in the ledger. -/
theorem Backs.allocate {size q : ℕ} {fill : Option β} (hq : V.Allocates h h' size fill q)
    (owner : κ) : Backs V h' (Function.update l q (some ⟨owner, size, fun _ => fill⟩)) := by
  obtain ⟨n, hle, hn, hapart⟩ := hq.room
  refine ⟨fun p => ?_, hl.separate.insert hn fun o m hoq ho => ?_⟩
  · by_cases hpq : p = q
    · subst hpq
      exact backedAt_some (Function.update_self _ _ _) hn hle fun i hi x hx => hq.filled x hx i hi
    · exact (hl.backedAt p).same (hq.others p hpq) (Function.update_of_ne hpq _ _)
  · have ho' := (hq.others o hoq).1.symm.trans ho
    exact ⟨ho', hapart o m ho'⟩

/-- A freed block is struck off the ledger. -/
theorem Backs.release {p : ℕ} (hp : V.Releases h h' p) :
    Backs V h' (Function.update l p none) := by
  refine ⟨fun q => ?_, hl.separate.sub fun q n hq => ?_⟩
  · by_cases hqp : q = p
    · subst hqp
      exact backedAt_none (Function.update_self _ _ _) hp.gone
    · exact (hl.backedAt q).same (hp.others q hqp) (Function.update_of_ne hqp _ _)
  · have hqp : q ≠ p := by
      rintro rfl
      exact absurd (hp.gone.symm.trans hq) nofun
    exact (hp.others q hqp).1.symm.trans hq

/-- Freed blocks are struck off the ledger together. -/
theorem Backs.releaseAll {P : ℕ → Prop} (hP : V.ReleasesAll h h' P)
    (hgone : ∀ p, P p → l' p = none) (hkept : ∀ p, ¬ P p → l' p = l p) : Backs V h' l' := by
  refine ⟨fun p => ?_, hl.separate.sub fun p n hp => ?_⟩
  · by_cases hp : P p
    · exact backedAt_none (hgone p hp) (hP.gone p hp)
    · exact (hl.backedAt p).same (hP.others p hp) (hkept p hp)
  · have hPp : ¬ P p := fun hPp => absurd ((hP.gone p hPp).symm.trans hp) nofun
    exact (hP.others p hPp).1.symm.trans hp

/-- A resized block moves in the ledger, with the bytes that it keeps. -/
theorem Backs.resize {p size q : ℕ} {b : Block κ β} (hp : l p = some b)
    (hq : V.Resizes h h' p size q) (owner : κ) :
    Backs V h' (Function.update (Function.update l p none) q (some (b.resize owner size))) := by
  obtain ⟨n, hle, hn, hapart⟩ := hq.room
  obtain ⟨m, hbm, hm, hbytes⟩ := (hl.backedAt p).block b hp
  have hgone : q ≠ p → V.usable h' p = none := fun hqp => (hq.place.resolve_left hqp).2
  refine ⟨fun o => ?_, hl.separate.insert hn fun o k hoq ho => ?_⟩
  · by_cases hoq : o = q
    · subst hoq
      refine backedAt_some (Function.update_self _ _ _) hn hle fun i hi x hx => ?_
      -- only bytes below both sizes are still known
      obtain ⟨⟨hib, -⟩, hx⟩ := Option.ite_none_right_eq_some.mp hx
      rw [hq.copied m hm i (Nat.lt_of_lt_of_le hib hbm) hi]
      exact hbytes i hib x hx
    · by_cases hop : o = p
      · subst hop
        refine backedAt_none ?_ (hgone (Ne.symm hoq))
        rw [Function.update_of_ne hoq, Function.update_self]
      · refine (hl.backedAt o).same (hq.others o hop hoq) ?_
        rw [Function.update_of_ne hoq, Function.update_of_ne hop]
  · have hop : o ≠ p := by
      rintro rfl
      exact absurd ((hgone (Ne.symm hoq)).symm.trans ho) nofun
    have ho' := (hq.others o hop hoq).1.symm.trans ho
    exact ⟨ho', hapart o k hop ho'⟩

/-- A byte that is written is known, and no other block sees it. -/
theorem Backs.store {p i : ℕ} {b : Block κ β} {x : β} (hp : l p = some b) (hi : i < b.size)
    (hs : V.Stores h h' p i x) : Backs V h' (l.store p i x) := by
  obtain ⟨n, hle, hn, hbytes⟩ := (hl.backedAt p).block b hp
  refine ⟨fun q => ?_, hs.usable ▸ hl.separate⟩
  have hentry : l.store p i x = Function.update l p (some (b.store i x)) := by
    rw [Ledger.store, hp]
    rfl
  by_cases hqp : q = p
  · subst hqp
    have hself : l.store q i x q = some (b.store i x) := by
      rw [hentry, Function.update_self]
    refine backedAt_some hself ((congrFun hs.usable q).trans hn) hle fun j hj y hy => ?_
    by_cases hji : j = i
    · subst hji
      rw [hs.written]
      simpa [Block.store] using hy
    · rw [hs.others _ fun h => hji (Nat.add_left_cancel h)]
      exact hbytes j hj y (by simpa [Block.store, hji] using hy)
  · refine (hl.backedAt q).same ⟨congrFun hs.usable q, fun m hm j hj => hs.others _ ?_⟩ ?_
    · rcases hl.separate q p m n hqp hm hn with hapart | hapart <;> omega
    · rw [hentry, Function.update_of_ne hqp]

/-- Every operation keeps the heap backing the ledger. -/
theorem Backs.apply {q : ℕ} {op : Op κ β} (hheld : op.Held l) (hop : op.Meets V h h' q) :
    Backs V h' (l.apply q op) := by
  cases op with
  | new owner size fill =>
    rcases hop with ⟨rfl, hsame⟩ | ⟨hq, hop⟩
    · exact hl.same hsame
    · rw [Ledger.apply, if_neg hq]
      exact hl.allocate hop owner
  | resize p owner size freesOnNull =>
    obtain ⟨b, hb⟩ := hheld p rfl
    rcases hop with hop | ⟨hq, hop⟩
    · split_ifs at hop with hfrees
      · obtain ⟨rfl, hop⟩ := hop
        rw [Ledger.apply, if_pos rfl, if_pos hfrees]
        exact hl.release hop
      · obtain ⟨rfl, hop⟩ := hop
        rw [Ledger.apply, if_pos rfl, if_neg hfrees]
        exact hl.same hop
    · rw [Ledger.apply, if_neg hq, hb]
      exact hl.resize hb hop owner
  | free p => exact hl.release hop
  | nothing => exact hl.same hop.2

/-- An operation changes no other block of the ledger than the one it is about, in the
ledger and in the heap. -/
theorem Backs.apply_of_ne {q : ℕ} {op : Op κ β} (hop : op.Meets V h h' q) {o : ℕ} {b : Block κ β}
    (ho : l o = some b) (hne : op.subject ≠ some o) :
    l.apply q op o = some b ∧ V.Same h h' o := by
  have hused := hl.usable_ne_none ho
  cases op with
  | new owner size fill =>
    rcases hop with ⟨rfl, hsame⟩ | ⟨hq, hop⟩
    · exact ⟨ho, hsame o⟩
    · have hoq : o ≠ q := by
        rintro rfl
        exact hused hop.fresh
      rw [Ledger.apply, if_neg hq, Function.update_of_ne hoq]
      exact ⟨ho, hop.others o hoq⟩
  | resize p owner size freesOnNull =>
    have hop' : o ≠ p := fun h => hne (congrArg some h.symm)
    rcases hop with hop | ⟨hq, hop⟩
    · split_ifs at hop with hfrees
      · rw [Ledger.apply, if_pos hop.1, if_pos hfrees, Function.update_of_ne hop']
        exact ⟨ho, hop.2.others o hop'⟩
      · rw [Ledger.apply, if_pos hop.1, if_neg hfrees]
        exact ⟨ho, hop.2 o⟩
    · have hoq : o ≠ q := by
        rintro rfl
        rcases hop.place with h | ⟨h, -⟩
        · exact hop' h
        · exact hused h
      rw [Ledger.apply, if_neg hq, Function.update_of_ne hoq, Function.update_of_ne hop']
      exact ⟨ho, hop.others o hop' hoq⟩
  | free p =>
    have hop' : o ≠ p := fun h => hne (congrArg some h.symm)
    rw [Ledger.apply, Function.update_of_ne hop']
    exact ⟨ho, hop.others o hop'⟩
  | nothing => exact ⟨ho, hop.2 o⟩

/-- A write changes no other block. -/
theorem Backs.store_of_ne {p i : ℕ} {b b' : Block κ β} {x : β} (hp : l p = some b)
    (hi : i < b.size) (hs : V.Stores h h' p i x) {o : ℕ} (ho : l o = some b') (hop : o ≠ p) :
    l.store p i x o = some b' ∧ V.Same h h' o := by
  obtain ⟨n, hle, hn, -⟩ := (hl.backedAt p).block b hp
  refine ⟨by rw [Ledger.store, Function.update_of_ne hop, ho], congrFun hs.usable o,
    fun m hm j hj => hs.others _ ?_⟩
  rcases hl.separate o p m n hop hm hn with hapart | hapart <;> omega

end

end Blocks
