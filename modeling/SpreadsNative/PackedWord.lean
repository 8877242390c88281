import Mathlib.Data.Nat.Bitwise

/-!
# Two fields in one machine word

A word of `w` bits split at bit `k` : `hi k x` is the field above the split, `lo k x`
the one below. The lemmas say what the usual bit tricks do to the two fields :

* masking with `2^k - 1` reads the lower field (`and_lowMask_eq_zero_iff`);
* an arithmetic shift right reads the upper one, if the sign bit is clear
  (`toNat_sshiftRight`);
* a plain decrement takes one off the lower field and borrows nothing, if the lower
  field is not zero (`hi_sub_one`, `lo_sub_one`);
* masking with `~(2^k - 1) | m` keeps the upper field and masks the lower with `m`
  (`hi_and_keepMask`, `lo_and_keepMask`);
* `((y << k) & max) | m`, `max` the largest positive value, packs `y` and `m`
  (`hi_shiftLeft_or`, `lo_shiftLeft_or`).
-/

namespace PackedWord

variable {w k : ℕ}

/-- The field from bit `k` up. -/
def hi (k : ℕ) (x : BitVec w) : ℕ :=
  x.toNat / 2 ^ k

/-- The field below bit `k`. -/
def lo (k : ℕ) (x : BitVec w) : ℕ :=
  x.toNat % 2 ^ k

/-- The two fields make the word. -/
theorem toNat_eq (k : ℕ) (x : BitVec w) : x.toNat = hi k x * 2 ^ k + lo k x :=
  (Nat.div_add_mod' x.toNat (2 ^ k)).symm

theorem lo_lt (k : ℕ) (x : BitVec w) : lo k x < 2 ^ k :=
  Nat.mod_lt _ (Nat.two_pow_pos k)

/-- Reading the fields off a word given as their sum. -/
theorem hi_of_toNat {x : BitVec w} {a b : ℕ} (hb : b < 2 ^ k) (h : x.toNat = a * 2 ^ k + b) :
    hi k x = a := by
  rw [hi, h, Nat.mul_comm, Nat.mul_add_div (Nat.two_pow_pos k), Nat.div_eq_of_lt hb, Nat.add_zero]

theorem lo_of_toNat {x : BitVec w} {a b : ℕ} (hb : b < 2 ^ k) (h : x.toNat = a * 2 ^ k + b) :
    lo k x = b := by
  rw [lo, h, Nat.mul_comm, Nat.mul_add_mod, Nat.mod_eq_of_lt hb]

/-- The fields of the zero word. -/
@[simp] theorem hi_zero : hi k (0#w) = 0 := by
  simp [hi]

@[simp] theorem lo_zero : lo k (0#w) = 0 := by
  simp [lo]

/-! ## Reading -/

/-- `(1 << k) - 1`. -/
def lowMask (w k : ℕ) : BitVec w :=
  (1#w <<< k) - 1#w

theorem toNat_lowMask (hk : k < w) : (lowMask w k).toNat = 2 ^ k - 1 := by
  have h1 : 1 < 2 ^ w := Nat.one_lt_two_pow (by omega)
  have h2 : 2 ^ k < 2 ^ w := Nat.pow_lt_pow_right (by omega) hk
  have h3 := Nat.two_pow_pos k
  rw [lowMask, BitVec.toNat_sub, BitVec.toNat_shiftLeft, BitVec.toNat_ofNat, Nat.mod_eq_of_lt h1,
    Nat.one_shiftLeft, Nat.mod_eq_of_lt h2,
    show 2 ^ w - 1 + 2 ^ k = 2 ^ w + (2 ^ k - 1) by omega, Nat.add_mod_left,
    Nat.mod_eq_of_lt (by omega)]

/-- Masking with `2^k - 1` reads the lower field. -/
theorem toNat_and_lowMask (hk : k < w) (x : BitVec w) : (x &&& lowMask w k).toNat = lo k x := by
  rw [BitVec.toNat_and, toNat_lowMask hk, Nat.and_two_pow_sub_one_eq_mod, lo]

theorem and_lowMask_eq_zero_iff (hk : k < w) (x : BitVec w) :
    x &&& lowMask w k = 0#w ↔ lo k x = 0 := by
  rw [← toNat_and_lowMask hk x, ← BitVec.toNat_inj]
  simp

/-- A word whose upper field leaves the sign bit clear is positive. -/
theorem msb_eq_false (hk : k < w) {x : BitVec w} (hx : hi k x < 2 ^ (w - 1 - k)) :
    x.msb = false := by
  rw [BitVec.msb_eq_false_iff_two_mul_lt]
  have hpow : 2 ^ w = 2 * (2 ^ (w - 1 - k) * 2 ^ k) := by
    rw [← Nat.pow_add, ← Nat.pow_succ']
    congr 1
    omega
  have hle : (hi k x + 1) * 2 ^ k ≤ 2 ^ (w - 1 - k) * 2 ^ k := Nat.mul_le_mul_right _ hx
  have hlo := lo_lt k x
  rw [Nat.add_mul, Nat.one_mul] at hle
  rw [toNat_eq k x, hpow]
  omega

/-- An arithmetic shift right reads the upper field of a positive word. -/
theorem toNat_sshiftRight (hk : k < w) {x : BitVec w} (hx : hi k x < 2 ^ (w - 1 - k)) :
    (x.sshiftRight k).toNat = hi k x := by
  rw [BitVec.sshiftRight_eq_of_msb_false (msb_eq_false hk hx), BitVec.toNat_ushiftRight,
    Nat.shiftRight_eq_div_pow, hi]

/-! ## Writing -/

/-- With the lower field not zero, a decrement takes one off it and borrows nothing. -/
theorem toNat_sub_one (hk : k < w) {x : BitVec w} (hx : lo k x ≠ 0) :
    (x - 1#w).toNat = hi k x * 2 ^ k + (lo k x - 1) := by
  have h1 : 1 < 2 ^ w := Nat.one_lt_two_pow (by omega)
  have hlt := x.isLt
  have heq := toNat_eq k x
  rw [BitVec.toNat_sub, BitVec.toNat_ofNat, Nat.mod_eq_of_lt h1,
    show 2 ^ w - 1 + x.toNat = 2 ^ w + (x.toNat - 1) by omega, Nat.add_mod_left,
    Nat.mod_eq_of_lt (by omega)]
  omega

theorem hi_sub_one (hk : k < w) {x : BitVec w} (hx : lo k x ≠ 0) : hi k (x - 1#w) = hi k x :=
  hi_of_toNat (by have := lo_lt k x; omega) (toNat_sub_one hk hx)

theorem lo_sub_one (hk : k < w) {x : BitVec w} (hx : lo k x ≠ 0) : lo k (x - 1#w) = lo k x - 1 :=
  lo_of_toNat (by have := lo_lt k x; omega) (toNat_sub_one hk hx)

/-- `~((1 << k) - 1) | m`. -/
def keepMask (w k : ℕ) (m : BitVec w) : BitVec w :=
  ~~~lowMask w k ||| m

theorem toNat_keepMask (hk : k < w) {m : BitVec w} (hm : m.toNat < 2 ^ k) :
    (keepMask w k m).toNat = (2 ^ (w - k) - 1) * 2 ^ k + m.toNat := by
  have hpow : 2 ^ w = 2 ^ (w - k) * 2 ^ k := by
    rw [← Nat.pow_add]
    congr 1
    omega
  have hnot : (~~~lowMask w k).toNat = (2 ^ (w - k) - 1) * 2 ^ k := by
    have := Nat.two_pow_pos k
    rw [BitVec.toNat_not, toNat_lowMask hk, Nat.sub_one_mul, ← hpow]
    omega
  rw [keepMask, BitVec.toNat_or, hnot, ← Nat.shiftLeft_eq, ← Nat.shiftLeft_add_eq_or_of_lt hm]

/-- Masking with `~(2^k - 1) | m` keeps the upper field. -/
theorem hi_and_keepMask (hk : k < w) (x : BitVec w) {m : BitVec w} (hm : m.toNat < 2 ^ k) :
    hi k (x &&& keepMask w k m) = hi k x := by
  have hlt : x.toNat / 2 ^ k < 2 ^ (w - k) := by
    rw [Nat.div_lt_iff_lt_mul (Nat.two_pow_pos k), ← Nat.pow_add, Nat.sub_add_cancel hk.le]
    exact x.isLt
  have hkeep : (keepMask w k m).toNat / 2 ^ k = 2 ^ (w - k) - 1 :=
    hi_of_toNat hm (toNat_keepMask hk hm)
  rw [hi, BitVec.toNat_and, Nat.and_div_two_pow, hkeep, Nat.and_two_pow_sub_one_eq_mod,
    Nat.mod_eq_of_lt hlt, hi]

/-- Masking with `~(2^k - 1) | m` masks the lower field with `m`. -/
theorem lo_and_keepMask (hk : k < w) (x : BitVec w) {m : BitVec w} (hm : m.toNat < 2 ^ k) :
    lo k (x &&& keepMask w k m) = lo k x &&& m.toNat := by
  have hkeep : (keepMask w k m).toNat % 2 ^ k = m.toNat :=
    lo_of_toNat hm (toNat_keepMask hk hm)
  rw [lo, BitVec.toNat_and, Nat.and_mod_two_pow, hkeep, lo]

/-- `((y << k) & max) | m` packs `y` above `m`, if neither reaches past its field. -/
theorem toNat_shiftLeft_or (hk : k < w) {y m : BitVec w} (hy : y.toNat < 2 ^ (w - 1 - k))
    (hm : m.toNat < 2 ^ k) :
    ((y <<< k) &&& BitVec.intMax w ||| m).toNat = y.toNat * 2 ^ k + m.toNat := by
  have hpow : 2 ^ (w - 1 - k) * 2 ^ k = 2 ^ (w - 1) := by
    rw [← Nat.pow_add]
    congr 1
    omega
  have hlt : y.toNat * 2 ^ k < 2 ^ (w - 1) :=
    hpow ▸ Nat.mul_lt_mul_of_pos_right hy (Nat.two_pow_pos k)
  have hlt' : y.toNat * 2 ^ k < 2 ^ w :=
    hlt.trans (Nat.pow_lt_pow_right (by omega) (by omega))
  have hshl : (y <<< k).toNat = y.toNat * 2 ^ k := by
    rw [BitVec.toNat_shiftLeft, Nat.shiftLeft_eq, Nat.mod_eq_of_lt hlt']
  rw [BitVec.toNat_or, BitVec.toNat_and, hshl, BitVec.toNat_intMax,
    Nat.and_two_pow_sub_one_of_lt_two_pow hlt, ← Nat.shiftLeft_eq,
    ← Nat.shiftLeft_add_eq_or_of_lt hm]

theorem hi_shiftLeft_or (hk : k < w) {y m : BitVec w} (hy : y.toNat < 2 ^ (w - 1 - k))
    (hm : m.toNat < 2 ^ k) : hi k ((y <<< k) &&& BitVec.intMax w ||| m) = y.toNat :=
  hi_of_toNat hm (toNat_shiftLeft_or hk hy hm)

theorem lo_shiftLeft_or (hk : k < w) {y m : BitVec w} (hy : y.toNat < 2 ^ (w - 1 - k))
    (hm : m.toNat < 2 ^ k) : lo k ((y <<< k) &&& BitVec.intMax w ||| m) = m.toNat :=
  lo_of_toNat hm (toNat_shiftLeft_or hk hy hm)

end PackedWord
