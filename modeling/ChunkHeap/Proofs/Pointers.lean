import Mathlib
import ChunkHeap.Proofs.Scalars

/-!
# Pointers of either width

A pointer is a word without a sign, of as many bytes as the data model says. The narrow
pointer at an address is the lower half of the wide one, in reading and in writing.
-/

set_option autoImplicit false

namespace ChunkHeap.Memory

variable (m : Memory) (a : ℕ)

/-- All bytes of a word count. -/
theorem load_eq_iff {m m' : Memory} (a k : ℕ) :
    m.load a k = m'.load a k ↔ m.AgreesOn m' ⟨a, k⟩ := by
  constructor
  · intro h
    induction k generalizing a with
    | zero =>
      intro x hx
      unfold Span.Covers Span.stop at hx
      simp only at hx
      omega
    | succ k ih =>
      have hbyte : (m a).toNat < 256 := (m a).toNat_lt
      have hbyte' : (m' a).toNat < 256 := (m' a).toNat_lt
      rw [load, load] at h
      -- the first byte is the remainder of the word by 256, the rest is the quotient
      intro x hx
      by_cases hfirst : x = a
      · subst hfirst
        apply UInt8.toNat_inj.mp
        omega
      · apply ih (a + 1) (by omega)
        unfold Span.Covers Span.stop at *
        simp only at *
        omega
  · intro h
    exact h.load_eq (Span.Within.refl _)

theorem getPointer_toNat (model : DataModel) :
    (m.getPointer model a).toNat = m.load a model.pointerSize := by
  have hword : m.getPointer model a = UInt64.ofNat (m.load a model.pointerSize) :=
    Script.Value.pointer.inj (Script.readValue_eq model m a .pointer)
  have hlt : m.load a model.pointerSize < 2 ^ 64 := by
    cases model with
    | bits32 => exact (m.load_lt a 4).trans (by decide)
    | bits64 => exact m.load_lt a 8
  rw [hword, UInt64.toNat_ofNat', Nat.mod_eq_of_lt hlt]

theorem putPointer_eq (model : DataModel) (v : UInt64) :
    m.putPointer model a v = m.store a model.pointerSize v.toNat :=
  Script.writeValue_eq model m a (.pointer v)

theorem getPointer_putPointer (model : DataModel) (v : UInt64) :
    ((m.putPointer model a v).getPointer model a).toNat = v.toNat % 256 ^ model.pointerSize := by
  rw [getPointer_toNat, putPointer_eq, load_store]

theorem narrowPointer_lt : (m.getPointer .bits32 a).toNat < 2 ^ 32 := by
  rw [getPointer_toNat]
  exact m.load_lt a 4

/-- A wide pointer is a narrow one with another four bytes above it. -/
theorem widePointer_eq :
    (m.getPointer .bits64 a).toNat =
      (m.getPointer .bits32 a).toNat + 2 ^ 32 * m.load (a + 4) 4 := by
  rw [getPointer_toNat, getPointer_toNat]
  exact m.load_add a 4 4

/-- What pointers at an address are under the two data models. -/
structure PointersAt (m : Memory) (a : ℕ) : Prop where
  wide : ∀ v, (m.putPointer .bits64 a v).getPointer .bits64 a = v
  narrow : ∀ v, ((m.putPointer .bits32 a v).getPointer .bits32 a).toNat = v.toNat % 2 ^ 32
  unsigned : (m.getPointer .bits32 a).toNat < 2 ^ 32
  lower : (m.getPointer .bits32 a).toNat = (m.getPointer .bits64 a).toNat % 2 ^ 32
  upper : ∀ v, ((m.putPointer .bits32 a v).getPointer .bits64 a).toNat =
    2 ^ 32 * ((m.getPointer .bits64 a).toNat / 2 ^ 32) + v.toNat % 2 ^ 32
  /-- The bytes of the width are read, each of them and no others. -/
  read : ∀ (model : DataModel) (m' : Memory),
    m.getPointer model a = m'.getPointer model a ↔ m.AgreesOn m' ⟨a, model.pointerSize⟩
  written : ∀ (model : DataModel) (v : UInt64) (i : ℕ), i < model.pointerSize →
    m.putPointer model a v (a + i) = UInt8.ofNat (v.toNat >>> (8 * i))
  kept : ∀ (model : DataModel) (v : UInt64),
    m.AgreesOff (m.putPointer model a v) ⟨a, model.pointerSize⟩

theorem pointers_follow_model : m.PointersAt a where
  wide := by
    intro v
    apply UInt64.toNat_inj.mp
    rw [getPointer_putPointer]
    exact Nat.mod_eq_of_lt v.toNat_lt
  narrow := fun v => m.getPointer_putPointer a .bits32 v
  unsigned := m.narrowPointer_lt a
  lower := by
    have hlow := m.narrowPointer_lt a
    rw [widePointer_eq]
    omega
  upper := by
    intro v
    have hlow := m.narrowPointer_lt a
    have hback : ((m.putPointer .bits32 a v).getPointer .bits32 a).toNat = v.toNat % 2 ^ 32 :=
      m.getPointer_putPointer a .bits32 v
    have habove : (m.putPointer .bits32 a v).load (a + 4) 4 = m.load (a + 4) 4 := by
      rw [putPointer_eq]
      exact load_overlay_outside _ _ (Or.inr (Nat.le_refl _))
    rw [widePointer_eq, widePointer_eq, hback, habove]
    omega
  read := by
    intro model m'
    rw [← UInt64.toNat_inj, getPointer_toNat, getPointer_toNat]
    exact load_eq_iff a _
  written := by
    intro model v i hi
    rw [putPointer_eq, store, overlay_inside _ _ (by omega), Nat.add_sub_cancel_left]
  kept := by
    intro model v
    rw [putPointer_eq]
    exact m.agreesOff_overlay a _ _

/-- A narrow pointer with its highest bit set is not negative. -/
example : Memory.getPointer .bits32 (Memory.zero.putInt 3 (-2)) 3 = 0xFFFFFFFE := by decide

end ChunkHeap.Memory
