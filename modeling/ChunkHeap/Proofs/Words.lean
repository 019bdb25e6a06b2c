import Mathlib
import ChunkHeap.Memory.Basic

/-!
# Words in memory

A stored word is loaded again, less the bits above its width. Clearing the bits
below a power of two rounds down to its multiples.
-/

set_option autoImplicit false

namespace ChunkHeap

theorem Word.clear_two_pow (x k : ℕ) : Word.clear x (2 ^ k - 1) = x - x % 2 ^ k := by
  rw [clear, Nat.and_two_pow_sub_one_eq_mod]

namespace Memory

theorem load_digits (m : Memory) (a width n : ℕ)
    (h : ∀ i < width, m (a + i) = UInt8.ofNat (n >>> (8 * i))) :
    m.load a width = n % 256 ^ width := by
  induction width generalizing a n with
  | zero => rw [load, pow_zero, Nat.mod_one]
  | succ width ih =>
    have h0 : (m a).toNat = n % 256 := by
      rw [show m a = UInt8.ofNat n by simpa using h 0 (by omega), UInt8.toNat_ofNat']
    have hr := ih (a + 1) (n >>> 8) fun i hi => by
      rw [show a + 1 + i = a + (i + 1) by omega, h (i + 1) (by omega), ← Nat.shiftRight_add]
      congr 2
      omega
    rw [load, h0, hr, Nat.shiftRight_eq_div_pow, pow_succ' 256, Nat.mod_mul]

theorem load_store (m : Memory) (a width n : ℕ) :
    (m.store a width n).load a width = n % 256 ^ width :=
  load_digits _ _ _ _ fun i hi => by
    rw [store, overlay_inside _ _ (by omega), Nat.add_sub_cancel_left]

end Memory

end ChunkHeap
