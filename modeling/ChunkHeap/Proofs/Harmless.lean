import Mathlib
import ChunkHeap.Proofs.Depot

/-!
# Faults change nothing

Which calls of a table or of its source end in a fault is told by the sizes and,
for a request, by whether its bucket is empty. The fault is noticed before the
table, the source or any byte has changed and before the platform is called.
-/

set_option autoImplicit false

namespace ChunkHeap

namespace Depot

variable {π : Type}

/-- What a fault has to leave alone: the table, the source, all bytes, and the
platform, to which no call is made. -/
structure Untouched (d d' : Depot π) : Prop where
  table : d'.table = d.table
  source : d'.yard.source = d.yard.source
  memory : d'.yard.machine.memory = d.yard.machine.memory
  platform : d'.yard.machine.platform = d.yard.machine.platform
  calls : d'.yard.machine.provider.calls = d.yard.machine.provider.calls
  out : d'.out = d.out

theorem Untouched.refl (d : Depot π) : d.Untouched d := ⟨rfl, rfl, rfl, rfl, rfl, rfl⟩

/-- What is never done, told by the sizes and by whether a bucket is empty. -/
def Barred (d : Depot π) : Trade → Prop
  | .take size => d.table.Rejects d.yard.source size
  | .put padded _ => d.table.Misfit padded
  | .carve size => d.yard.source.regionSize < size
  | .write .. | .renew | .releaseAll => False

variable [Platform π]

/-- The calls that end in a fault. -/
def Faults (d : Depot π) : Trade → Prop
  | .take size => ∃ fault,
      (d.table.take size d.yard.source d.yard.machine).1 = .error (.fault fault)
  | .put padded chunk => ∃ fault,
      (d.table.put padded chunk d.yard.machine.memory).1 = .error fault
  | .carve size => ∃ fault,
      (d.yard.source.carve size d.yard.machine).1 = .error (.fault fault)
  | .write .. | .renew | .releaseAll => False

namespace Stocked

variable {d : Depot π} {k R : ℕ} {lists : Fin bucketCount → List ℕ}

theorem take_faults (h : d.Stocked k R lists) (size : ℕ) :
    (d.Faults (.take size) ↔ d.Barred (.take size)) ∧
      (d.Faults (.take size) → d.Untouched (d.step (.take size))) := by
  have htakes := h.takes size
  simp only [Faults, Barred, Depot.step]
  generalize d.table.take size d.yard.source d.yard.machine = x at htakes ⊢
  cases htakes with
  | rejected fault rejects calm =>
    refine ⟨⟨fun _ => rejects, fun _ => ⟨fault, rfl⟩⟩, fun _ => ?_⟩
    rcases calm with rfl | ⟨e, rfl⟩
    · exact .refl d
    · exact ⟨rfl, rfl, rfl, rfl, by rw [Machine.provider_report], rfl⟩
  | reused accepts top => simp [accepts]
  | refused accepts bound carve => simp [accepts]
  | fresh accepts bound pos carve => simp [accepts]

theorem put_faults (h : d.Stocked k R lists) (padded chunk : ℕ) :
    (d.Faults (.put padded chunk) ↔ d.Barred (.put padded chunk)) ∧
      (d.Faults (.put padded chunk) → d.Untouched (d.step (.put padded chunk))) := by
  have hunit : 0 < d.table.unit := h.unit ▸ Nat.two_pow_pos k
  simp only [Faults, Barred, Depot.step]
  rcases BucketTable.put_cases hunit padded chunk d.yard.machine.memory with
    ⟨hmisfit, fault, hput⟩ | ⟨hfits, i, hput⟩
  · rw [hput]
    refine ⟨⟨fun _ => hmisfit, fun _ => ⟨fault, rfl⟩⟩, fun _ => ?_⟩
    exact ⟨rfl, rfl, rfl, rfl, rfl, rfl⟩
  · rw [hput]
    simp [hfits]

theorem carve_faults (h : d.Stocked k R lists) (size : ℕ) :
    (d.Faults (.carve size) ↔ d.Barred (.carve size)) ∧
      (d.Faults (.carve size) → d.Untouched (d.step (.carve size))) := by
  simp only [Faults, Barred, Depot.step, Quarry.step]
  by_cases hs : d.yard.source.regionSize < size
  · have hcarve : d.yard.source.carve size d.yard.machine = _ := if_pos hs
    rw [hcarve]
    exact ⟨⟨fun _ => hs, fun _ => ⟨_, rfl⟩⟩, fun _ => .refl d⟩
  · have hcarves : d.yard.source.Carves size d.yard.machine _ :=
      h.laid.carves (by rw [← h.laid.size]; omega)
    generalize d.yard.source.carve size d.yard.machine = x at hcarves ⊢
    cases hcarves with
    | room current fits => simp [hs]
    | refused full asked => simp [hs]
    | granted full asked => simp [hs]

end Stocked

/-- After any trade, for a unit that is any power of two from eight on and regions
of any size: what ends in a fault is known, and a fault leaves all as it was. -/
theorem faults_leave_all {k R : ℕ} (hk : 3 ≤ k) (w : Machine π) {ts : List Trade}
    (hv : Valid ts (start (2 ^ k) R w))
    (hr : (after ts (start (2 ^ k) R w)).yard.machine.Reliable) :
    (after ts (start (2 ^ k) R w)).table.count + 1 < wordLimit ∧
    ∀ t, ((after ts (start (2 ^ k) R w)).Faults t ↔ (after ts (start (2 ^ k) R w)).Barred t) ∧
      ((after ts (start (2 ^ k) R w)).Faults t →
        (after ts (start (2 ^ k) R w)).Untouched ((after ts (start (2 ^ k) R w)).step t)) := by
  obtain ⟨lists, h⟩ := (Stocked.start k R w).after hk hv hr
  refine ⟨(Nat.add_le_add_right h.count_le 1).trans_lt (by decide), fun t => ?_⟩
  cases t with
  | take size => exact h.take_faults size
  | put padded chunk => exact h.put_faults padded chunk
  | carve size => exact h.carve_faults size
  | write addr bytes => exact ⟨Iff.rfl, False.elim⟩
  | renew => exact ⟨Iff.rfl, False.elim⟩
  | releaseAll => exact ⟨Iff.rfl, False.elim⟩

/-- A table of small chunks and a source of odd regions in the arena. -/
def stall : Depot (Arena × Tenant) :=
  start (2 ^ 3) 48 { memory := .zero, platform := ({}, {}) }

/-- One chunk is put back as a bigger one and taken again. A second one is put
back under a size that no region has room for. -/
def haggle : List Trade :=
  [.take 5, .take 20, .put 16 0x100000000000, .take 12, .write 0x100000000000 [1, 2, 3], .carve 4,
    .put 56 0x100000000008]

theorem faults_leave_all_haggle :
    Valid haggle stall ∧ (after haggle stall).yard.machine.Reliable ∧
    ¬ (after haggle stall).Faults (.take 56) ∧ (after haggle stall).Faults (.take 57) ∧
    (after haggle stall).Faults (.put 2056 0x100000000000) ∧
    ∀ t, (after haggle stall).Faults t →
      (after haggle stall).Untouched ((after haggle stall).step t) := by
  have hv : Valid haggle stall := by decide +kernel
  have hh : (after haggle stall).yard.machine.Honoured := by decide +kernel
  have hunit : (after haggle stall).table.unit = 8 := by decide +kernel
  have hsize : (after haggle stall).yard.source.regionSize = 48 := by decide +kernel
  have htop : (after haggle stall).table.heads[Word.ceil 56 8 / 8 - 1]? =
      some (some 0x100000000008) := by decide +kernel
  have hempty : (after haggle stall).table.heads[Word.ceil 57 8 / 8 - 1]? = some none := by
    decide +kernel
  have hall : ∀ t, ((after haggle stall).Faults t ↔ (after haggle stall).Barred t) ∧
      ((after haggle stall).Faults t →
        (after haggle stall).Untouched ((after haggle stall).step t)) :=
    (faults_leave_all (Nat.le_refl 3) _ hv hh.reliable).2
  refine ⟨hv, hh.reliable, ?_, ?_, ?_, fun t => (hall t).2⟩
  · rw [(hall _).1]
    rintro (hunfit | ⟨hnone, -⟩)
    · simp [BucketTable.Unfit, hunit, Word.ceil, wordLimit, bucketCount] at hunfit
    · rw [hunit, htop] at hnone
      simp at hnone
  · rw [(hall _).1]
    refine Or.inr ⟨?_, ?_⟩
    · rwa [hunit]
    · rw [hunit, hsize]
      decide
  · rw [(hall _).1]
    exact Or.inr (Or.inr (by rw [hunit]; decide))

end Depot

end ChunkHeap
