import Mathlib
import ChunkHeap.Proofs.Span
import ChunkHeap.Script.Access

/-!
# Copies inside a buffer

The ranges of a copy may overlap in any way. What arrives are the bytes that were
there before the copy, as if they were put aside first. A copy byte by byte does
the same only in one order, upwards if the bytes move down and downwards if they
move up, and in either order if the ranges are disjoint.
-/

set_option autoImplicit false

namespace ChunkHeap

namespace Memory

/-- Copies one byte after the other, the first one first. -/
def copyUp (m : Memory) (dest src : ℕ) : ℕ → Memory
  | 0 => m
  | n + 1 => (copyUp m dest src n).fill (dest + n) 1 (copyUp m dest src n (src + n))

/-- Copies one byte after the other, the last one first. -/
def copyDown (m : Memory) (dest src : ℕ) : ℕ → Memory
  | 0 => m
  | n + 1 => copyDown (m.fill (dest + n) 1 (m (src + n))) dest src n

variable (m : Memory) {dest src n : ℕ}

theorem copy_inside {i : ℕ} (hi : i < n) : m.copy dest n src (dest + i) = m (src + i) := by
  rw [copy, overlay_inside _ _ (by omega), Nat.add_sub_cancel_left]

theorem copy_outside {x : ℕ} (hx : x < dest ∨ dest + n ≤ x) : m.copy dest n src x = m x :=
  overlay_outside _ _ hx

/-- A memory with the bytes in place and all else as it was is the copy. -/
theorem eq_copy {m' : Memory} (hin : ∀ i < n, m' (dest + i) = m (src + i))
    (hout : ∀ x, x < dest ∨ dest + n ≤ x → m' x = m x) : m' = m.copy dest n src := by
  funext x
  by_cases hx : x < dest ∨ dest + n ≤ x
  · rw [hout x hx, m.copy_outside hx]
  · obtain ⟨i, rfl⟩ := Nat.exists_eq_add_of_le (show dest ≤ x by omega)
    rw [hin i (by omega), m.copy_inside (by omega)]

theorem copyUp_eq (h : dest ≤ src ∨ src + n ≤ dest) : m.copyUp dest src n = m.copy dest n src := by
  induction n with
  | zero => exact m.eq_copy (by simp) fun x _ => rfl
  | succ n ih =>
    -- the byte that is read next has not been written yet
    have hread : m.copy dest n src (src + n) = m (src + n) := m.copy_outside (by omega)
    rw [copyUp, ih (by omega), hread]
    apply m.eq_copy
    · intro i hi
      by_cases hlast : i = n
      · subst hlast
        exact overlay_inside _ _ (by omega)
      · rw [fill, overlay_outside _ _ (by omega), m.copy_inside (by omega)]
    · intro x hx
      rw [fill, overlay_outside _ _ (by omega), m.copy_outside (by omega)]

theorem copyDown_eq (h : src ≤ dest ∨ dest + n ≤ src) :
    m.copyDown dest src n = m.copy dest n src := by
  induction n generalizing m with
  | zero => exact m.eq_copy (by simp) fun x _ => rfl
  | succ n ih =>
    rw [copyDown, ih _ (by omega)]
    apply m.eq_copy
    · intro i hi
      by_cases hlast : i = n
      · subst hlast
        rw [copy_outside _ (by omega)]
        exact overlay_inside _ _ (by omega)
      · -- the byte that was written first is not read again
        rw [copy_inside _ (by omega)]
        exact overlay_outside _ _ (by omega)
    · intro x hx
      rw [copy_outside _ (by omega)]
      exact overlay_outside _ _ (by omega)

theorem putBytes_getBytes : m.putBytes dest (m.getBytes src n) = m.copy dest n src := by
  have hlen : (m.getBytes src n).length = n := by simp [getBytes, bytes]
  apply m.eq_copy
  · intro i hi
    rw [putBytes, write, overlay_inside _ _ (by omega), Nat.add_sub_cancel_left]
    simp [getBytes, bytes, hi]
  · intro x hx
    rw [putBytes, write, overlay_outside _ _ (by omega)]

/-- The second memory is the first one after a copy of `n` bytes. -/
structure Copied (m m' : Memory) (dest n src : ℕ) : Prop where
  moved : ∀ i < n, m' (dest + i) = m (src + i)
  kept : m.AgreesOff m' ⟨dest, n⟩
  staged : m' = m.putBytes dest (m.getBytes src n)
  upwards : dest ≤ src ∨ src + n ≤ dest → m' = m.copyUp dest src n
  downwards : src ≤ dest ∨ dest + n ≤ src → m' = m.copyDown dest src n

theorem copied (dest n src : ℕ) : m.Copied (m.copy dest n src) dest n src where
  moved := fun _ hi => m.copy_inside hi
  kept := m.agreesOff_overlay _ _ _
  staged := m.putBytes_getBytes.symm
  upwards := fun h => (m.copyUp_eq h).symm
  downwards := fun h => (m.copyDown_eq h).symm

end Memory

namespace Script.Access

variable {model : DataModel} {base size dest src n : ℕ}

/-- A copy inside a buffer does what reading the bytes and then writing them does. -/
theorem copies_exact (m : Memory) (hd : dest + n ≤ size) (hs : src + n ≤ size) :
    ∃ m' bs, (copy dest n src).perform model base size m = (.ok .nothing, m') ∧
      m.Copied m' (base + dest) n (base + src) ∧
      (getBytes src n).perform model base size m = (.ok (.bytes bs), m) ∧
      (putBytes dest bs).perform model base size m = (.ok .nothing, m') := by
  have hlen : (m.getBytes (base + src) n).length = n := by simp [Memory.getBytes, Memory.bytes]
  have hcopied := m.copied (base + dest) n (base + src)
  refine ⟨_, m.getBytes (base + src) n, ?_, hcopied, ?_, ?_⟩
  · simp [perform, fits, ranges, run, hd, hs]
  · simp [perform, fits, ranges, run, hs]
  · simp [perform, fits, ranges, run, hlen, hd, ← hcopied.staged]

theorem copies_exact_shifted :
    2 + 6 ≤ 8 ∧ 0 + 6 ≤ 8 ∧
    ∃ m' bs, (copy 2 6 0).perform .bits64 100 8 UInt8.ofNat = (.ok .nothing, m') ∧
      Memory.Copied UInt8.ofNat m' (100 + 2) 6 (100 + 0) ∧
      (getBytes 0 6).perform .bits64 100 8 UInt8.ofNat = (.ok (.bytes bs), UInt8.ofNat) ∧
      (putBytes 2 bs).perform .bits64 100 8 UInt8.ofNat = (.ok .nothing, m') :=
  ⟨by decide, by decide, copies_exact _ (by decide) (by decide)⟩

/-- Upwards a copy to the next byte repeats the first one. -/
example : (Memory.copy UInt8.ofNat 1 3 0).bytes 0 4 = [0, 0, 1, 2] ∧
    (Memory.copyUp UInt8.ofNat 1 0 3).bytes 0 4 = [0, 0, 0, 0] := by decide

end Script.Access

end ChunkHeap
