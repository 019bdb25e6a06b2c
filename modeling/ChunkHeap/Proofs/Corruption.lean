import Mathlib
import ChunkHeap.Proofs.Simulation

/-!
# Size words that nobody wrote

A size word that falls into a class but is no size of a chunk of that class is
noticed before anything changes. A greater word always passes for the mark of
an oversized chunk, whether it is the mark or not: the bytes in front of the
chunk are taken for the length of a reservation, which the platform is asked to
take back, and only then may the count of oversized chunks give a fault.
-/

set_option autoImplicit false

namespace ChunkHeap

/-- A size word that is neither a positive multiple of the unit of the class it
falls into nor the mark of oversized chunks. -/
def Chunk.Corrupted (word : ℕ) : Prop :=
  word ≠ oversizedMarker ∧ ∀ c, Regime.ofSize word = .pooled c → ¬ (0 < word ∧ c.unit ∣ word)

theorem BucketTable.put_corrupted {t : BucketTable} {c : SizeClass} (hu : t.unit = c.unit)
    {word : ℕ} (hw : ¬ (0 < word ∧ c.unit ∣ word)) (chunk : ℕ) (m : Memory) :
    t.put word chunk m = (.error (.corruptedHeader word c.unit), t, m) := by
  have hpos := c.unit_pos
  unfold put
  rw [hu]
  split_ifs with hzero hunit hmod
  · rfl
  · omega
  · rfl
  · exact absurd ⟨Nat.pos_of_ne_zero hzero, Nat.dvd_of_mod_eq_zero (not_not.mp hmod)⟩ hw

namespace Heap

variable {π : Type} [Platform π] {h : Heap} {w : Machine π} {ptr chunk : ℕ}

theorem free_corrupted {c : SizeClass} (hu : (h.tables c).unit = c.unit)
    (hchunk : Chunk.ofData w.memory ptr = chunk)
    (hc : Regime.ofSize (Chunk.size w.memory chunk) = .pooled c)
    (hw : ¬ (0 < Chunk.size w.memory chunk ∧ c.unit ∣ Chunk.size w.memory chunk)) :
    h.free ptr w = (.error (.corruptedHeader (Chunk.size w.memory chunk) c.unit), h, w) := by
  simp only [free, hchunk, hc, BucketTable.put_corrupted hu hw, withTable_self]

theorem free_unpooled (hchunk : Chunk.ofData w.memory ptr = chunk)
    (hc : Regime.ofSize (Chunk.size w.memory chunk) = .oversized) :
    h.free ptr w = h.freeOversized chunk w := by
  simp only [free, hchunk, hc]

theorem freeOversized_releases (h : Heap) (chunk : ℕ) (w : Machine π) :
    (h.freeOversized chunk w).2.2.provider = w.provider.release (chunk - Chunk.oversizedPrefix)
      (w.memory.load (chunk - Chunk.oversizedPrefix) 8) := by
  simp only [freeOversized, Chunk.reservation]
  split
  · rw [Machine.provider_release, Machine.provider_report]
  · rw [Machine.provider_release, Machine.provider_report]

theorem freeOversized_faults (h : Heap) (chunk : ℕ) (w : Machine π) :
    (∃ fault, (h.freeOversized chunk w).1 = .error fault) ↔ h.oversized = 0 := by
  simp only [freeOversized, Word.sub]
  by_cases hone : 1 ≤ h.oversized
  · simp [hone]
    omega
  · simp [hone]
    omega

end Heap

namespace Machine

variable {π : Type}

/-- The machine with other bytes in memory, whoever wrote them. -/
def withMemory (w : Machine π) (m : Memory) : Machine π := { w with memory := m }

end Machine

namespace World

variable {π : Type} [Platform π]

theorem corrupted_header_caught {h : Heap} (hf : h.Fresh) (w : Machine π) {acts : List Action}
    (hv : Valid acts (start h w)) (hh : (after acts (start h w)).machine.Honoured) {l : Loan}
    (hl : l ∈ (after acts (start h w)).loans) {m : Memory}
    (hop : Chunk.hopOf m l.ptr = Chunk.hopOf (after acts (start h w)).machine.memory l.ptr)
    (bad : Chunk.Corrupted (Chunk.size m l.chunk)) :
    (Chunk.size m l.chunk ≤ 2 ^ 20 → ∃ c : SizeClass,
      (after acts (start h w)).heap.free l.ptr ((after acts (start h w)).machine.withMemory m) =
        (.error (.corruptedHeader (Chunk.size m l.chunk) c.unit), (after acts (start h w)).heap,
          (after acts (start h w)).machine.withMemory m)) ∧
    (2 ^ 20 < Chunk.size m l.chunk →
      ((after acts (start h w)).heap.free l.ptr
          ((after acts (start h w)).machine.withMemory m)).2.2.provider =
        (after acts (start h w)).machine.provider.release (l.chunk - Chunk.oversizedPrefix)
          (m.load (l.chunk - Chunk.oversizedPrefix) 8) ∧
      ((∃ fault, ((after acts (start h w)).heap.free l.ptr
          ((after acts (start h w)).machine.withMemory m)).1 = .error fault) ↔
        (after acts (start h w)).heap.stats.oversizedLive = 0)) := by
  have hs := ((hf.mirrors w).after_mirrors hv hh).1
  generalize after acts (start h w) = s at *
  have hchunk : Chunk.ofData m l.ptr = l.chunk := by
    rw [Chunk.ofData_congr hop, (hs.shows hl).chunk]
    exact Place.chunk_of _ (hs.loans l hl).chunk
  constructor
  · intro hle
    cases hc : Regime.ofSize (Chunk.size m l.chunk) with
    | pooled c =>
      use c
      exact Heap.free_corrupted (hs.kept.represents.units c) hchunk hc (bad.2 c hc)
    | oversized => exact absurd (Regime.ofSize_eq_oversized.mp hc) (Nat.not_lt.mpr hle)
  · intro hlt
    have hc : Regime.ofSize (Chunk.size m l.chunk) = .oversized :=
      Regime.ofSize_eq_oversized.mpr hlt
    rw [Heap.free_unpooled hchunk hc]
    exact ⟨Heap.freeOversized_releases _ _ _, Heap.freeOversized_faults _ _ _⟩

/-- Memory in which the size word of the third chunk lent was overwritten. -/
def overrun (word : ℕ) : Machine (Arena × Tenant) :=
  (after (errands.take 3) onArena).machine.withMemory
    (Chunk.setSize (after (errands.take 3) onArena).machine.memory 0x100000000020 word)

theorem corrupted_header_caught_errands :
    Chunk.Corrupted (Chunk.size (overrun 9).memory 0x100000000020) ∧
    ∃ c : SizeClass, (after (errands.take 3) onArena).heap.free 0x100000000028 (overrun 9) =
      (.error (.corruptedHeader 9 c.unit), (after (errands.take 3) onArena).heap, overrun 9) := by
  have hsize : Chunk.size (overrun 9).memory 0x100000000020 = 9 := by decide +kernel
  have hbad : Chunk.Corrupted 9 := by
    constructor
    · decide
    · intro c
      cases c <;> decide
  have hv : Valid (errands.take 3) onArena := by decide +kernel
  have hh : (after (errands.take 3) onArena).machine.Honoured := by decide +kernel
  have hl : ⟨0x100000000028, 20, 4, 0x100000000020, none⟩ ∈
      (after (errands.take 3) onArena).loans := by decide +kernel
  have hop : Chunk.hopOf (overrun 9).memory 0x100000000028 =
      Chunk.hopOf (after (errands.take 3) onArena).machine.memory 0x100000000028 := by
    decide +kernel
  rw [hsize]
  have hcaught := (corrupted_header_caught (.plain 7) _ hv hh hl hop (by rw [hsize]; exact hbad)).1
  rw [hsize] at hcaught
  exact ⟨hbad, hcaught (by decide)⟩

/-- A word above all classes is not noticed. A range that was never granted is
released, and the heap counts one oversized chunk less than there are. -/
theorem corrupted_header_released :
    Chunk.Corrupted (Chunk.size (overrun 2097153).memory 0x100000000020) ∧
    Chunk.hopOf (overrun 2097153).memory 0x100000000028 =
      Chunk.hopOf (after (errands.take 3) onArena).machine.memory 0x100000000028 ∧
    (after (errands.take 3) onArena).heap.stats.oversizedLive = 1 ∧
    ¬ ∃ fault, (after (errands.take 3) onArena).heap.free 0x100000000028 (overrun 2097153) =
      (.error fault, (after (errands.take 3) onArena).heap, overrun 2097153) := by
  have hsize : Chunk.size (overrun 2097153).memory 0x100000000020 = 2097153 := by decide +kernel
  have hfreed : ((after (errands.take 3) onArena).heap.free 0x100000000028
      (overrun 2097153)).2.1.oversized = 0 := by decide +kernel
  have hlive : (after (errands.take 3) onArena).heap.stats.oversizedLive = 1 := by decide +kernel
  rw [hsize]
  refine ⟨⟨by decide, ?_⟩, by decide +kernel, hlive, ?_⟩
  · intro c
    cases c <;> decide
  · rintro ⟨fault, hfault⟩
    rw [hfault] at hfreed
    have hzero : (after (errands.take 3) onArena).heap.oversized = 0 := hfreed
    have hone : (after (errands.take 3) onArena).heap.oversized = 1 := hlive
    omega

end World

end ChunkHeap
