import Mathlib
import ChunkHeap.Proofs.Simulation

/-!
# Safety of live allocations

Whatever users ask for and in whatever order they give it back, a live pointer
is aligned, all its bytes lie in memory that is held, and no other pointer has
any of them.
-/

set_option autoImplicit false

namespace ChunkHeap

/-- What the holder of a loan may rely on. -/
structure Loan.Safe (l : Loan) (held : List Span) : Prop where
  aligned : l.align ∣ l.ptr
  header : Span.Within ⟨l.chunk, Chunk.headerSize⟩ l.place.extent
  hop : Span.Within ⟨l.ptr - 4, 4⟩ l.place.extent
  data : l.data.Within l.place.extent
  held : ∃ r ∈ held, l.place.extent.Within r

theorem Loan.Sound.safe {l : Loan} {id : ℕ} {held : List Span} (h : l.Sound id)
    (hr : ∃ r ∈ held, l.place.extent.Within r) : l.Safe held where
  aligned := by
    rw [h.ptr]
    exact Word.dvd_ceil _ _
  header := by
    have hafter := h.after_chunk
    have hstop := h.covers.2
    exact ⟨Place.of_start _ _, (show _ ≤ _ from hafter).trans hstop.le⟩
  hop := by
    have hafter := h.after_chunk
    have hstart := Place.of_start l.total l.chunk
    have hstop := h.covers.2
    simp only [Chunk.headerSize, Loan.place, Span.Within, Span.stop] at *
    omega
  data := h.data_within
  held := hr

namespace World

variable {π : Type} {s : World π} {g : Ideal}

theorem Mirrors.safe (hs : s.Mirrors g) {l : Loan} (hl : l ∈ s.loans) : l.Safe s.machine.held := by
  apply (hs.loans l hl).safe
  apply hs.owns.within_held
  exact List.mem_append_left _ (List.mem_map_of_mem (List.mem_map_of_mem hl))

theorem Mirrors.data_apart (hs : s.Mirrors g) : s.loans.Pairwise fun l l' =>
    l.place.extent.Disjoint l'.place.extent ∧ l.data.Disjoint l'.data := by
  apply hs.extents_apart.imp_of_mem
  intro l l' hl hl' hd
  exact ⟨hd, hd.mono (hs.loans l hl).data_within (hs.loans l' hl').data_within⟩

variable [Platform π]

theorem live_allocations_safe {h : Heap} (hf : h.Fresh) (w : Machine π) {acts : List Action}
    (hv : Valid acts (start h w)) (hh : (after acts (start h w)).machine.Honoured) :
    (∀ l ∈ (after acts (start h w)).loans, l.Safe (after acts (start h w)).machine.held) ∧
    (after acts (start h w)).loans.Pairwise fun l l' =>
      l.place.extent.Disjoint l'.place.extent ∧ l.data.Disjoint l'.data := by
  have hs := ((hf.mirrors w).after_mirrors hv hh).1
  exact ⟨fun l hl => hs.safe hl, hs.data_apart⟩

theorem live_allocations_safe_errands :
    (after errands onArena).loans.length = 3 ∧
    Valid errands onArena ∧ (after errands onArena).machine.Honoured ∧
    (∀ l ∈ (after errands onArena).loans, l.Safe (after errands onArena).machine.held) ∧
    (after errands onArena).loans.Pairwise fun l l' =>
      l.place.extent.Disjoint l'.place.extent ∧ l.data.Disjoint l'.data := by
  have hn : (after errands onArena).loans.length = 3 := by decide +kernel
  have hv : Valid errands onArena := by decide +kernel
  have hh : (after errands onArena).machine.Honoured := by decide +kernel
  exact ⟨hn, hv, hh, live_allocations_safe (.plain 7) _ hv hh⟩

end World

end ChunkHeap
