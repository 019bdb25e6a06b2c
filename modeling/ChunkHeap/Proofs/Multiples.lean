import Mathlib
import ChunkHeap.Proofs.Rounding

/-!
# Rounding up to the limit of words

Rounding fails exactly where the sum with the unit is no word. Below that it finds the least
multiple, so it keeps multiples and the order, goes along with shifts by multiples, and a
rounding to a smaller unit is forgotten by one to a greater.
-/

set_option autoImplicit false

namespace ChunkHeap.Word

variable {x y unit : ℕ}

theorem ceil_eq_self (hu : 0 < unit) (hd : unit ∣ x) : ceil x unit = x :=
  Nat.le_antisymm (ceil_le hd (Nat.le_refl x)) (le_ceil x hu)

theorem ceil_mono (hu : 0 < unit) (h : x ≤ y) : ceil x unit ≤ ceil y unit :=
  ceil_le (dvd_ceil y unit) (h.trans (le_ceil y hu))

theorem ceil_add_mul (x n : ℕ) (hu : 0 < unit) :
    ceil (x + n * unit) unit = ceil x unit + n * unit := by
  have hsum : x + n * unit + unit - 1 = x + unit - 1 + n * unit := by omega
  rw [ceil, ceil, hsum, Nat.add_mul_div_right _ _ hu, Nat.add_mul]

theorem ceil_ceil {coarse : ℕ} (hu : 0 < unit) (hc : 0 < coarse) (hd : unit ∣ coarse) (x : ℕ) :
    ceil (ceil x unit) coarse = ceil x coarse := by
  apply Nat.le_antisymm
  · -- a multiple of the greater unit is one of the smaller
    have hdvd : unit ∣ ceil x coarse := hd.trans (dvd_ceil x coarse)
    have hle : ceil x unit ≤ ceil x coarse := ceil_le hdvd (le_ceil x hc)
    exact ceil_le (dvd_ceil x coarse) hle
  · exact ceil_mono hc (le_ceil x hu)

theorem roundUp_eq_ok_iff {k : ℕ} :
    roundUp x (2 ^ k) = .ok y ↔ x + 2 ^ k < wordLimit ∧ ceil x (2 ^ k) = y := by
  by_cases hsum : x + 2 ^ k < wordLimit
  · rw [roundUp_two_pow hsum, Except.ok.injEq, and_iff_right hsum]
  · rw [roundUp_overflow (Nat.le_of_not_lt hsum)]
    constructor
    · intro h
      cases h
    · rintro ⟨h, -⟩
      exact absurd h hsum

theorem roundUp_eq_error_iff {k : ℕ} {fault : Fault} :
    roundUp x (2 ^ k) = .error fault ↔ fault = .addOverflow ∧ wordLimit ≤ x + 2 ^ k := by
  by_cases hsum : x + 2 ^ k < wordLimit
  · rw [roundUp_two_pow hsum]
    constructor
    · intro h
      cases h
    · rintro ⟨-, h⟩
      exact absurd hsum (Nat.not_lt.mpr h)
  · have hle : wordLimit ≤ x + 2 ^ k := Nat.le_of_not_lt hsum
    rw [roundUp_overflow hle, Except.error.injEq, eq_comm, and_iff_left hle]

/-- What rounding to multiples of a unit does to all words. -/
structure Exact (unit : ℕ) : Prop where
  fails : ∀ x fault,
    roundUp x unit = .error fault ↔ fault = .addOverflow ∧ wordLimit ≤ x + unit
  least : ∀ x y, roundUp x unit = .ok y ↔
    x + unit < wordLimit ∧ IsLeast {z | unit ∣ z ∧ x ≤ z} y
  close : ∀ x y, roundUp x unit = .ok y → x ≤ y ∧ y < x + unit
  again : ∀ x y z, roundUp x unit = .ok y → roundUp y unit = .ok z → z = y
  mono : ∀ x x' y', x ≤ x' → roundUp x' unit = .ok y' → ∃ y, roundUp x unit = .ok y ∧ y ≤ y'
  shift : ∀ x n z, roundUp (x + n * unit) unit = .ok z →
    ∃ y, roundUp x unit = .ok y ∧ z = y + n * unit
  /-- Rounding to a smaller unit first makes no difference. -/
  coarser : ∀ j x y z, unit ≤ 2 ^ j → roundUp x unit = .ok y → roundUp y (2 ^ j) = .ok z →
    roundUp x (2 ^ j) = .ok z

theorem rounding_exact (k : ℕ) : Exact (2 ^ k) where
  fails := fun _ _ => roundUp_eq_error_iff
  least := by
    intro x y
    have hleast := isLeast_ceil x (Nat.two_pow_pos k)
    rw [roundUp_eq_ok_iff]
    constructor
    · rintro ⟨hsum, rfl⟩
      exact ⟨hsum, hleast⟩
    · rintro ⟨hsum, hy⟩
      exact ⟨hsum, hleast.unique hy⟩
  close := by
    intro x y h
    obtain ⟨-, rfl⟩ := roundUp_eq_ok_iff.mp h
    exact ⟨le_ceil x (Nat.two_pow_pos k), ceil_lt x (Nat.two_pow_pos k)⟩
  again := by
    intro x y z hy hz
    obtain ⟨-, rfl⟩ := roundUp_eq_ok_iff.mp hy
    obtain ⟨-, rfl⟩ := roundUp_eq_ok_iff.mp hz
    exact ceil_eq_self (Nat.two_pow_pos k) (dvd_ceil x _)
  mono := by
    intro x x' y' hle h
    obtain ⟨hsum, rfl⟩ := roundUp_eq_ok_iff.mp h
    exact ⟨_, roundUp_eq_ok_iff.mpr ⟨by omega, rfl⟩, ceil_mono (Nat.two_pow_pos k) hle⟩
  shift := by
    intro x n z h
    obtain ⟨hsum, rfl⟩ := roundUp_eq_ok_iff.mp h
    exact ⟨_, roundUp_eq_ok_iff.mpr ⟨by omega, rfl⟩, ceil_add_mul x n (Nat.two_pow_pos k)⟩
  coarser := by
    intro j x y z hj hy hz
    have hd : 2 ^ k ∣ 2 ^ j := pow_dvd_pow 2 ((Nat.pow_le_pow_iff_right (by decide)).mp hj)
    obtain ⟨-, rfl⟩ := roundUp_eq_ok_iff.mp hy
    obtain ⟨hsum, rfl⟩ := roundUp_eq_ok_iff.mp hz
    have hle := le_ceil x (Nat.two_pow_pos k)
    have hceil := ceil_ceil (Nat.two_pow_pos k) (Nat.two_pow_pos j) hd x
    exact roundUp_eq_ok_iff.mpr ⟨by omega, hceil.symm⟩

/-- The greatest multiple is found by rounding, and is itself too great to be rounded. -/
example : roundUp (2 ^ 64 - 15) 8 = .ok (2 ^ 64 - 8) ∧
    roundUp (2 ^ 64 - 8) 8 = .error .addOverflow := by decide

end ChunkHeap.Word
