import Mathlib
import ChunkHeap.Proofs.Simulation

/-!
# The heap refines the ideal heap

All that the heap reads back from header words, hops and links is what the
ideal heap remembers. Users and platforms cannot tell one from the other: the
answers and the figures after each step are the same, and so are the calls made
to the platform, one after the other.
-/

set_option autoImplicit false

namespace ChunkHeap.World

variable {π : Type} [Platform π]

theorem heap_refines_ideal {h : Heap} (hf : h.Fresh) (w : Machine π) {acts : List Action}
    (hv : Valid acts (start h w)) (hh : (after acts (start h w)).machine.Honoured) :
    trace acts (start h w) = Ideal.trace acts h.ideal ⟨w.platform, []⟩ ∧
    (after acts (start h w)).machine.provider =
      (Ideal.after acts h.ideal ⟨w.platform, []⟩).2 := by
  have hs := hf.mirrors w
  exact ⟨hs.trace_eq hv hh, (hs.after_mirrors hv hh).2⟩

theorem heap_refines_ideal_errands :
    Valid errands onArena ∧ (after errands onArena).machine.Honoured ∧
    trace errands onArena = Ideal.trace errands onArena.heap.ideal ⟨onArena.machine.platform, []⟩ ∧
    (after errands onArena).machine.provider =
      (Ideal.after errands onArena.heap.ideal ⟨onArena.machine.platform, []⟩).2 := by
  have hv : Valid errands onArena := by decide +kernel
  have hh : (after errands onArena).machine.Honoured := by decide +kernel
  exact ⟨hv, hh, heap_refines_ideal (.plain 7) _ hv hh⟩

end ChunkHeap.World
