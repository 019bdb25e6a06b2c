import Mathlib
import ChunkHeap.Proofs.Requests
import ChunkHeap.Proofs.Run

/-!
# Journals grow

No operation takes a note back, so a platform that honours its contract in the
journal of a run has honoured it in every earlier journal of the run.
-/

set_option autoImplicit false

namespace ChunkHeap

namespace Machine

variable {π : Type} {w w' w'' : Machine π}

/-- The journal of the second machine begins with that of the first. -/
def Grew (w w' : Machine π) : Prop := w.journal <+: w'.journal

theorem Grew.refl (w : Machine π) : w.Grew w := List.prefix_refl _

theorem Grew.trans (h : w.Grew w') (h' : w'.Grew w'') : w.Grew w'' := List.IsPrefix.trans h h'

theorem Grew.honoured (h : w.Grew w') (hh : w'.Honoured) : w.Honoured := by
  obtain ⟨notes, hn⟩ := h
  unfold Honoured at hh
  rw [← hn, honouredFrom_append] at hh
  exact hh.1

/-- Nothing was asked of the platform and nothing was reported. -/
structure Calm (w w' : Machine π) : Prop where
  platform : w'.platform = w.platform
  journal : w'.journal = w.journal

namespace Calm

theorem refl (w : Machine π) : w.Calm w := ⟨rfl, rfl⟩

theorem trans (h : w.Calm w') (h' : w'.Calm w'') : w.Calm w'' :=
  ⟨h'.platform.trans h.platform, h'.journal.trans h.journal⟩

theorem provider (h : w.Calm w') : w'.provider = w.provider := by
  rw [Machine.provider, h.platform, h.journal]
  rfl

theorem honoured_iff (h : w.Calm w') : w'.Honoured ↔ w.Honoured := by
  rw [Honoured, h.journal]
  rfl

theorem grew (h : w.Calm w') : w.Grew w' := by
  rw [Grew, h.journal]

end Calm

theorem grew_log (w : Machine π) (notes : List Note) : w.Grew (w.log notes) :=
  List.prefix_append _ _

theorem grew_report (w : Machine π) (e : Event) : w.Grew (w.report e) := w.grew_log _

variable [Platform π]

theorem grew_reserve (w : Machine π) (len : ℕ) : w.Grew (w.reserve len).2 := by
  unfold reserve
  split
  · exact List.prefix_append _ _
  · exact List.prefix_append _ _

theorem grew_release (w : Machine π) (base len : ℕ) : w.Grew (w.release base len) :=
  List.prefix_append _ _

end Machine

open Machine

variable {π : Type} [Platform π]

theorem Machine.stable_grew (w : Machine π) : Stable fun w' : Machine π => w.Grew w' where
  reserve := fun w' len h => h.trans (w'.grew_reserve len)
  report := fun w' e h => h.trans (w'.grew_report e)
  write := fun _ _ h => h

theorem RegionSource.grew_carve (r : RegionSource) (size : ℕ) (w : Machine π) :
    w.Grew (r.carve size w).2.2 :=
  w.stable_grew.carve (Grew.refl w) r size

theorem BucketTable.grew_take (t : BucketTable) (size : ℕ) (r : RegionSource) (w : Machine π) :
    w.Grew (t.take size r w).2.2.2 :=
  w.stable_grew.take (Grew.refl w) t size r

namespace Heap

theorem grew_alloc (h : Heap) (size align : ℕ) (w : Machine π) :
    w.Grew (h.alloc size align w).2.2 :=
  w.stable_grew.alloc (Grew.refl w) h size align

theorem calm_allocate (h : Heap) (layout : Layout) (w : Machine π) :
    (h.alloc layout.size layout.align w).2.2.Calm (h.allocate layout w).2.2 := by
  unfold allocate
  split
  · next hx => rw [hx]; exact Calm.refl _
  · next hx =>
    rw [hx]
    split
    · exact Calm.refl _
    · exact Calm.refl _

theorem calm_allocateZeroed (h : Heap) (layout : Layout) (w : Machine π) :
    (h.alloc layout.size layout.align w).2.2.Calm (h.allocateZeroed layout w).2.2 := by
  have ha := h.calm_allocate layout w
  unfold allocateZeroed
  split
  · next hx => rwa [hx] at ha
  · next hx =>
    rw [hx] at ha
    exact ⟨ha.platform, ha.journal⟩

theorem grew_freeOversized (h : Heap) (chunk : ℕ) (w : Machine π) :
    w.Grew (h.freeOversized chunk w).2.2 := by
  have hr : ∀ base len, w.Grew ((w.report (.releasingOversized base len)).release base len) :=
    fun base len => (w.grew_report _).trans (Machine.grew_release _ base len)
  unfold freeOversized
  simp only
  split
  · exact hr _ _
  · exact hr _ _

theorem grew_free (h : Heap) (ptr : ℕ) (w : Machine π) : w.Grew (h.free ptr w).2.2 := by
  unfold free
  simp only
  split
  · exact Grew.refl w
  · exact h.grew_freeOversized _ w

theorem grew_deallocate (h : Heap) (block : Block) (w : Machine π) :
    w.Grew (h.deallocate block w).2.2 := by
  unfold deallocate
  split
  · exact Grew.refl w
  · exact h.grew_free block.ptr w

end Heap

namespace World

theorem machine_alloc (s : World π) (size align : ℕ) :
    (s.step (.alloc size align)).2.machine = (s.heap.alloc size align s.machine).2.2 := by
  unfold step
  simp only
  split <;> simp [*, settle]

/-- A block is laid out as a pointer is, and zeros go to its bytes alone. -/
theorem calm_allocate (s : World π) (layout : Layout) (zeroed : Bool) :
    (s.heap.alloc layout.size layout.align s.machine).2.2.Calm
      (s.step (.allocate layout zeroed)).2.machine := by
  have ha := s.heap.calm_allocate layout s.machine
  have hz := s.heap.calm_allocateZeroed layout s.machine
  cases zeroed with
  | false =>
    simp only [step, Bool.false_eq_true, if_false]
    split
    · next hx => rwa [hx] at ha
    · next hx => rwa [hx] at ha
  | true =>
    simp only [step, if_true]
    split
    · next hx => rwa [hx] at hz
    · next hx => rwa [hx] at hz

theorem grew_step (s : World π) (a : Action) : s.machine.Grew (s.step a).2.machine := by
  cases a with
  | alloc size align =>
    rw [machine_alloc]
    exact s.heap.grew_alloc size align s.machine
  | allocate layout zeroed =>
    exact (s.heap.grew_alloc layout.size layout.align s.machine).trans
      (s.calm_allocate layout zeroed).grew
  | free ptr => exact s.heap.grew_free ptr s.machine
  | deallocate block => exact s.heap.grew_deallocate block s.machine
  | paddedSize block => exact Grew.refl _
  | write addr bytes => exact Grew.refl _

theorem grew_after (acts : List Action) (s : World π) : s.machine.Grew (after acts s).machine := by
  induction acts generalizing s with
  | nil => exact Grew.refl _
  | cons a acts ih => exact (s.grew_step a).trans (ih _)

/-- What is honoured in the journal of a run was honoured after its first step. -/
theorem honoured_step {s : World π} {a : Action} {acts : List Action}
    (h : (after (a :: acts) s).machine.Honoured) : (s.step a).2.machine.Honoured :=
  (grew_after acts _).honoured h

end World

end ChunkHeap
