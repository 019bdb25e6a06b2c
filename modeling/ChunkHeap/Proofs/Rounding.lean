import Mathlib
import ChunkHeap.BucketTable
import ChunkHeap.Proofs.Words

/-!
# Rounding and size classes

For a power of two the checked rounding is the least multiple above its
argument. A pooled total is padded to the unit of its class, stays in that
class and has a bucket there.
-/

set_option autoImplicit false

namespace ChunkHeap

namespace Word

/-- The least multiple of a positive `unit` that is at least `x`. -/
def ceil (x unit : ℕ) : ℕ := (x + unit - 1) / unit * unit

theorem dvd_ceil (x unit : ℕ) : unit ∣ ceil x unit := Nat.dvd_mul_left _ _

theorem le_ceil (x : ℕ) {unit : ℕ} (hu : 0 < unit) : x ≤ ceil x unit := by
  have h := Nat.div_add_mod (x + unit - 1) unit
  have hm := Nat.mod_lt (x + unit - 1) hu
  rw [Nat.mul_comm] at h
  unfold ceil
  omega

theorem ceil_lt (x : ℕ) {unit : ℕ} (hu : 0 < unit) : ceil x unit < x + unit := by
  have h := Nat.div_mul_le_self (x + unit - 1) unit
  unfold ceil
  omega

theorem ceil_le {x y unit : ℕ} (hd : unit ∣ y) (h : x ≤ y) : ceil x unit ≤ y := by
  obtain ⟨k, rfl⟩ := hd
  rcases Nat.eq_zero_or_pos unit with rfl | hu
  · simp [ceil]
  · rw [Nat.mul_comm unit k] at h ⊢
    apply Nat.mul_le_mul_right
    have hlt : x + unit - 1 < (k + 1) * unit := by rw [Nat.succ_mul]; omega
    exact Nat.le_of_lt_succ ((Nat.div_lt_iff_lt_mul hu).mpr hlt)

theorem isLeast_ceil (x : ℕ) {unit : ℕ} (hu : 0 < unit) :
    IsLeast {y | unit ∣ y ∧ x ≤ y} (ceil x unit) :=
  ⟨⟨dvd_ceil x unit, le_ceil x hu⟩, fun _ h => ceil_le h.1 h.2⟩

theorem roundUp_two_pow {x k : ℕ} (h : x + 2 ^ k < wordLimit) :
    roundUp x (2 ^ k) = .ok (ceil x (2 ^ k)) := by
  have hk : 1 ≤ 2 ^ k := Nat.one_le_two_pow
  rw [roundUp, add_eq_ok h]
  change (do
    let last ← sub (x + 2 ^ k) 1
    let mask ← sub (2 ^ k) 1
    return clear last mask : Except Fault ℕ) = _
  rw [sub_eq_ok (by omega), sub_eq_ok hk]
  change Except.ok (clear (x + 2 ^ k - 1) (2 ^ k - 1)) = _
  rw [clear_two_pow, ceil, Nat.div_mul_self_eq_mod_sub_self]

theorem roundUp_overflow {x unit : ℕ} (h : wordLimit ≤ x + unit) :
    roundUp x unit = .error .addOverflow := by
  rw [roundUp, add, if_neg (Nat.not_lt.mpr h)]
  rfl

end Word

namespace SizeClass

theorem unit_pos (c : SizeClass) : 0 < c.unit := by cases c <;> decide

theorem unit_two_pow (c : SizeClass) : ∃ k, c.unit = 2 ^ k := by
  cases c
  · exact ⟨3, rfl⟩
  · exact ⟨8, rfl⟩
  · exact ⟨12, rfl⟩

theorem eight_dvd_unit (c : SizeClass) : 8 ∣ c.unit := by cases c <;> decide

theorem maxSize_le (c : SizeClass) : c.maxSize ≤ SizeClass.big.maxSize := by
  cases c <;> decide

theorem maxSize_big : SizeClass.big.maxSize = 1048576 := rfl

def bucketSize (c : SizeClass) (i : Fin bucketCount) : ℕ := c.unit * (i.val + 1)

theorem bucketSize_injective (c : SizeClass) : Function.Injective c.bucketSize := by
  intro i j h
  have := Nat.eq_of_mul_eq_mul_left c.unit_pos h
  exact Fin.ext (by omega)

theorem eight_dvd_bucketSize (c : SizeClass) (i : Fin bucketCount) : 8 ∣ c.bucketSize i :=
  Dvd.dvd.mul_right c.eight_dvd_unit _

theorem unit_le_bucketSize (c : SizeClass) (i : Fin bucketCount) : c.unit ≤ c.bucketSize i :=
  Nat.le_mul_of_pos_right _ (Nat.succ_pos _)

theorem eight_le_bucketSize (c : SizeClass) (i : Fin bucketCount) : 8 ≤ c.bucketSize i :=
  (Nat.le_of_dvd c.unit_pos c.eight_dvd_unit).trans (c.unit_le_bucketSize i)

theorem bucketSize_pos (c : SizeClass) (i : Fin bucketCount) : 0 < c.bucketSize i :=
  Nat.lt_of_lt_of_le (by decide) (c.eight_le_bucketSize i)

theorem bucketSize_le (c : SizeClass) (i : Fin bucketCount) : c.bucketSize i ≤ c.maxSize := by
  rw [bucketSize, maxSize, Nat.mul_comm]
  exact Nat.mul_le_mul_right _ i.isLt

end SizeClass

namespace Regime

/-- The size of the biggest class below, so the sizes of a class are those
above its floor up to its greatest. -/
def floor : SizeClass → ℕ
  | .small => 0
  | .medium => SizeClass.small.maxSize
  | .big => SizeClass.medium.maxSize

theorem ofSize_eq_pooled {n : ℕ} {c : SizeClass} (h0 : 0 < n) :
    ofSize n = .pooled c ↔ floor c < n ∧ n ≤ c.maxSize := by
  have hs : SizeClass.small.maxSize = 2048 := rfl
  have hm : SizeClass.medium.maxSize = 65536 := rfl
  have hb : SizeClass.big.maxSize = 1048576 := rfl
  unfold ofSize
  cases c <;> split_ifs <;> simp [floor, hs, hm, hb] <;> omega

theorem ofSize_eq_oversized {n : ℕ} : ofSize n = .oversized ↔ SizeClass.big.maxSize < n := by
  have hs : SizeClass.small.maxSize = 2048 := rfl
  have hm : SizeClass.medium.maxSize = 65536 := rfl
  have hb : SizeClass.big.maxSize = 1048576 := rfl
  unfold ofSize
  split_ifs <;> simp <;> omega

variable {total : ℕ} {c : SizeClass}

theorem le_maxSize (h0 : 0 < total) (h : ofSize total = .pooled c) : total ≤ c.maxSize :=
  ((ofSize_eq_pooled h0).mp h).2

theorem ceil_le_maxSize (h0 : 0 < total) (h : ofSize total = .pooled c) :
    Word.ceil total c.unit ≤ c.maxSize :=
  Word.ceil_le (Nat.dvd_mul_left _ _) (le_maxSize h0 h)

theorem ofSize_ceil (h0 : 0 < total) (h : ofSize total = .pooled c) :
    ofSize (Word.ceil total c.unit) = .pooled c := by
  have hle := Word.le_ceil total c.unit_pos
  rw [ofSize_eq_pooled (by omega)]
  exact ⟨((ofSize_eq_pooled h0).mp h).1.trans_le hle, ceil_le_maxSize h0 h⟩

theorem exists_bucket (h0 : 0 < total) (h : ofSize total = .pooled c) :
    ∃ i, Word.ceil total c.unit = c.bucketSize i := by
  obtain ⟨k, hk⟩ := Word.dvd_ceil total c.unit
  have hpos := h0.trans_le (Word.le_ceil total c.unit_pos)
  have hle := ceil_le_maxSize h0 h
  rw [hk, SizeClass.maxSize, Nat.mul_comm bucketCount] at hle
  have hk0 : 0 < k := Nat.pos_of_mul_pos_left (hk ▸ hpos)
  have hkl := Nat.le_of_mul_le_mul_left hle c.unit_pos
  exact ⟨⟨k - 1, by omega⟩, by rw [hk, SizeClass.bucketSize]; congr 1; simp; omega⟩

/-- Padding wastes less than an eighth, except in the smallest class. -/
theorem padding_lt (h0 : 0 < total) (h : ofSize total = .pooled c) (hc : c ≠ .small) :
    8 * (Word.ceil total c.unit - total) < total := by
  have hf := ((ofSize_eq_pooled h0).mp h).1
  have hlt := Word.ceil_lt total c.unit_pos
  have hs : SizeClass.small.maxSize = 2048 := rfl
  have hm : SizeClass.medium.maxSize = 65536 := rfl
  cases c
  · exact absurd rfl hc
  · simp only [floor, SizeClass.unit] at *
    omega
  · simp only [floor, SizeClass.unit] at *
    omega

end Regime

end ChunkHeap
