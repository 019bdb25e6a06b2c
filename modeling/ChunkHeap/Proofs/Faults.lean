import Mathlib
import ChunkHeap.Proofs.Simulation

/-!
# Valid runs break no contract

In a valid run no check of the heap fails, whatever the sizes and alignments
asked for. Counters and header words are not checked when they are written.
They hold what they should nonetheless, because the chunks that they speak of
are disjoint and lie in the lower half of the address space.
-/

set_option autoImplicit false

namespace ChunkHeap

/-- The contract that was broken, if the answer is that one was. -/
def Answer.fault? : Answer → Option Fault
  | .pointer (.error (.fault what)) => some what
  | .block (.error (.fault what)) => some what
  | .returned (.error what) => some what
  | .padded (.error what) => some what
  | _ => none

theorem Ideal.fault?_step {π : Type} [Platform π] (g : Ideal) (a : Action) (p : Provider π) :
    (g.step a p).1.fault? = none := by
  cases a with
  | alloc size align =>
    simp only [step]
    cases (g.alloc size align p).1 <;> rfl
  | allocate layout zeroed =>
    simp only [step]
    cases (g.alloc layout.size layout.align p).1 <;> rfl
  | free ptr => rfl
  | deallocate block => rfl
  | paddedSize block => rfl
  | write addr bytes => rfl

theorem Ideal.length_freeSpans (g : Ideal) :
    g.freeSpans.length = g.freeCount .small + g.freeCount .medium + g.freeCount .big := by
  have hshelf : ∀ k, (g.shelf k).length = (g.stack k.1 (k.1.bucketSize k.2)).length :=
    fun k => List.length_map _
  have hcount : ∀ c, g.freeCount c =
      ((List.finRange bucketCount).map fun i => (g.stack c (c.bucketSize i)).length).sum :=
    fun c => Fin.sum_univ_def _
  rw [hcount, hcount, hcount, freeSpans, List.length_flatMap]
  simp [buckets, hshelf, Function.comp_def, SProd.sprod, List.product]
  omega

namespace World

variable {π : Type} {s : World π} {g : Ideal}

/-- No counter is near the end of its range, and no header word has lost bits
when it was written. -/
structure InWords (s : World π) : Prop where
  counts : ∀ c, (s.heap.tables c).count + 1 < wordLimit
  oversized : s.heap.oversized + 1 < wordLimit
  regions : s.heap.regions.bases.length + 1 < wordLimit
  cursor : s.heap.regions.cursor ≤ s.heap.regions.regionSize
  chunks : ∀ t ∈ s.cuts, t.stop < wordLimit
  stops : ∀ l ∈ s.loans, l.data.stop < l.place.extent.stop ∧ l.place.extent.stop < wordLimit
  sizes : ∀ l ∈ s.loans, l.place.word < 2 ^ 32 ∧
    Chunk.size s.machine.memory l.chunk = l.place.word
  hops : ∀ l ∈ s.loans, ∃ hop < 2 ^ 32, l.ptr = l.chunk + Chunk.headerSize + hop ∧
    Chunk.hopOf s.machine.memory l.ptr = hop

namespace Mirrors

theorem held_length_le (hs : s.Mirrors g) : s.machine.held.length ≤ layoutLimit := by
  apply Span.length_le hs.owns.apart _ hs.owns.below
  intro r hr
  rcases List.mem_append.mp (hs.owns.regions.mem_iff.mp hr) with hr | hr
  · obtain ⟨b, -, rfl⟩ := List.mem_map.mp hr
    exact Nat.lt_of_lt_of_le (by decide) hs.owns.roomy
  · obtain ⟨p, hp, hres⟩ := List.mem_filterMap.mp hr
    obtain ⟨l, -, rfl⟩ := List.mem_map.mp hp
    rcases l.place_cases with ⟨c, i, -, hplace⟩ | hplace
    · simp [hplace, Place.reservation?] at hres
    · obtain rfl : ⟨_, l.total + Chunk.oversizedPrefix⟩ = r := by
        simpa [hplace, Place.reservation?] using hres
      exact Nat.add_pos_left l.total_pos _

theorem freeSpans_length_le (hs : s.Mirrors g) : g.freeSpans.length ≤ layoutLimit := by
  apply Span.length_le (List.pairwise_append.mp hs.owns.extents_apart).2.1
  · intro t ht
    obtain ⟨c, i, chunk, -, rfl⟩ := g.mem_freeSpans.mp ht
    exact c.bucketSize_pos i
  · intro t ht
    obtain ⟨r, hr, hw⟩ := hs.owns.within_held (List.mem_append_right _ ht)
    exact hw.2.trans (hs.owns.below r hr)

theorem word_lt (l : Loan) : l.place.word < 2 ^ 32 := by
  rcases l.place_cases with ⟨c, i, -, hp⟩ | hp
  · rw [hp]
    exact ((c.bucketSize_le i).trans c.maxSize_le).trans_lt (by decide)
  · rw [hp]
    change Chunk.oversizedMarker < 2 ^ 32
    decide

theorem hop_eq (hs : s.Mirrors g) {l : Loan} (hl : l ∈ s.loans) :
    ∃ hop < 2 ^ 32, l.ptr = l.chunk + Chunk.headerSize + hop ∧
      Chunk.hopOf s.machine.memory l.ptr = hop := by
  have hsound := hs.loans l hl
  have hchunk := (hs.shows hl).chunk
  rw [show l.place.chunk = l.chunk from Place.chunk_of _ hsound.chunk, Chunk.ofData] at hchunk
  have hlow := hsound.chunk
  have hlt := Chunk.dataAt_lt l.chunk hsound.align_pos
  rw [← hsound.ptr] at hlt
  have hmax := (Heap.alignmentAllowed_iff.mp hsound.allowed).2
  simp only [Heap.maxAlignment, Chunk.headerSize, Chunk.oversizedPrefix] at *
  exact ⟨Chunk.hopOf s.machine.memory l.ptr, by omega, by omega, rfl⟩

theorem inWords (hs : s.Mirrors g) : s.InWords := by
  have hr := hs.kept.represents
  have hlimit : layoutLimit + 1 < wordLimit := by decide
  have hfree := hs.freeSpans_length_le
  have hheld := hs.held_length_le
  rw [g.length_freeSpans] at hfree
  rw [hs.owns.regions.length_eq, List.length_append, List.length_map, ← hs.owns.oversized] at hheld
  constructor
  · intro c
    rw [hr.counts c]
    cases c <;> omega
  · rw [hr.oversized]
    omega
  · rw [hr.regions]
    change g.bases.length + 1 < wordLimit
    omega
  · rw [hr.regions]
    exact hs.owns.tiled.cursor_le
  · intro t ht
    obtain ⟨b, hb, hw⟩ := hs.owns.tiled.within_region ht
    have hbelow := hs.owns.below _ (hs.owns.base_mem hb)
    have hstop := hw.2
    omega
  · intro l hl
    obtain ⟨r, hr, hw⟩ := hs.owns.within_held (List.mem_append_left _
      (List.mem_map_of_mem (List.mem_map_of_mem hl)))
    have hbelow := hs.owns.below r hr
    have hstop := hw.2
    exact ⟨(hs.loans l hl).data_stop_lt, by omega⟩
  · intro l hl
    have hword := (hs.shows hl).headed.word
    rw [show l.place.chunk = l.chunk from Place.chunk_of _ (hs.loans l hl).chunk] at hword
    exact ⟨word_lt l, hword⟩
  · exact fun l hl => hs.hop_eq hl

end Mirrors

variable [Platform π]

theorem Mirrors.no_fault (hs : s.Mirrors g) {a : Action} (ha : s.Ready a)
    (hh : (s.step a).2.machine.Honoured) : (s.step a).1.fault? = none := by
  rw [(hs.step_follows ha hh).answer]
  exact g.fault?_step a _

theorem Mirrors.no_fault_trace {acts : List Action} (hs : s.Mirrors g) (hv : Valid acts s)
    (hh : (after acts s).machine.Honoured) : ∀ x ∈ trace acts s, x.1.fault? = none := by
  induction acts generalizing s g with
  | nil => simp [trace]
  | cons a acts ih =>
    have hstep := honoured_step hh
    have hnext := (hs.step_follows hv.1 hstep).mirrors
    exact List.forall_mem_cons.mpr ⟨hs.no_fault hv.1 hstep, ih hnext hv.2 hh⟩

theorem valid_runs_never_fault {h : Heap} (hf : h.Fresh) (w : Machine π) {acts : List Action}
    (hv : Valid acts (start h w)) (hh : (after acts (start h w)).machine.Honoured) :
    (∀ x ∈ trace acts (start h w), x.1.fault? = none) ∧ (after acts (start h w)).InWords := by
  have hs := hf.mirrors w
  exact ⟨hs.no_fault_trace hv hh, (hs.after_mirrors hv hh).1.inWords⟩

/-- Requests at the ends of all ranges. The sum of the third one still fits into
a word and leaves it with the prefix of a reservation. -/
def extremes : List Action :=
  [.alloc (2 ^ 64 - 1) 1, .alloc (2 ^ 64 - 9) 1, .alloc (2 ^ 64 - 10) 1, .alloc (2 ^ 63) 1,
    .alloc 8 0, .alloc 8 24, .alloc 8 (2 ^ 33), .alloc 0 1, .alloc 1 (2 ^ 32), .alloc 1048567 1,
    .free 0x100000000008]

theorem valid_runs_never_fault_extremes :
    Valid extremes onArena ∧ (after extremes onArena).machine.Honoured ∧
    (∀ x ∈ trace extremes onArena, x.1.fault? = none) ∧ (after extremes onArena).InWords := by
  have hv : Valid extremes onArena := by decide +kernel
  have hh : (after extremes onArena).machine.Honoured := by decide +kernel
  have hall := valid_runs_never_fault (.plain 7) _ hv ‹_›
  exact ⟨hv, hh, hall⟩

end World

end ChunkHeap
