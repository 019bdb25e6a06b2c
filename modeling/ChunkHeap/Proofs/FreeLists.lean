import Mathlib
import ChunkHeap.Proofs.Simulation

/-!
# Every chunk is in one place

The links in free chunks lead through lists that end and hold chunks of one size
each. The counters are the lengths of the lists. What was cut off the regions
is lent or on a list, and nothing else has been cut.
-/

set_option autoImplicit false

namespace ChunkHeap

/-- The chunks on all lists, with the sizes that their buckets stand for. -/
def chunksOn (lists : SizeClass → Fin bucketCount → List ℕ) : List Span :=
  buckets.flatMap fun k => (lists k.1 k.2).map (Span.mk · (k.1.bucketSize k.2))

namespace World

variable {π : Type} {s : World π} {g : Ideal}

def lentChunks (s : World π) : List Span := (s.loans.map Loan.place).filterMap Place.piece?

/-- All chunks are accounted for by the lists of the buckets and the loans, and
by the parts of the regions that they were cut off. -/
structure Accounted (s : World π) (lists : SizeClass → Fin bucketCount → List ℕ)
    (parts : List Span) : Prop where
  chains : ∀ c i, Chunk.Chain s.machine.memory ((s.heap.tables c).heads.get i) (lists c i)
  nodup : ∀ c i, (lists c i).Nodup
  units : ∀ c, (s.heap.tables c).unit = c.unit
  sized : ∀ c i, ∀ x ∈ lists c i, ⟨x, (s.heap.tables c).unit * (i.val + 1)⟩ ∈ s.cuts
  counts : ∀ c, (s.heap.tables c).count = ∑ i, (lists c i).length
  stats : s.heap.stats.freeSmall = ∑ i, (lists .small i).length ∧
    s.heap.stats.freeMedium = ∑ i, (lists .medium i).length ∧
    s.heap.stats.freeBig = ∑ i, (lists .big i).length
  parts : Parts s.heap.regions.regionSize s.heap.regions.bases s.heap.regions.cursor s.cuts parts
  apart : s.cuts.Pairwise Span.Disjoint
  aligned : ∀ t ∈ s.cuts, 8 ∣ t.start
  all : s.cuts.Perm (s.lentChunks ++ chunksOn lists)
  once : ((s.lentChunks ++ chunksOn lists).map Span.start).Nodup

theorem Mirrors.once (hs : s.Mirrors g) :
    ((s.lentChunks ++ g.freeSpans).map Span.start).Nodup := by
  apply Span.nodup_starts
  · exact (Span.pairwise_disjoint_perm hs.owns.pieces).mp hs.owns.cuts_apart
  · intro t ht
    exact hs.owns.tiled.len_pos t (hs.owns.pieces.mem_iff.mpr ht)

theorem Mirrors.stack_nodup (hs : s.Mirrors g) (c : SizeClass) (i : Fin bucketCount) :
    (g.stack c (c.bucketSize i)).Nodup := by
  have hfree := (List.nodup_append.mp (hs.once.of_map _)).2.1
  exact ((List.nodup_flatMap.mp hfree).1 (c, i) (mem_buckets _)).of_map _

theorem Mirrors.accounted (hs : s.Mirrors g) :
    ∃ parts, s.Accounted (fun c i => g.stack c (c.bucketSize i)) parts := by
  have hr := hs.kept.represents
  have hbases : ∀ b ∈ g.bases, 8 ∣ b := fun b hb =>
    hs.owns.aligned ⟨b, g.regionSize⟩ (hs.owns.base_mem hb)
  obtain ⟨parts, hp⟩ := hs.owns.tiled.exists_parts
  use parts
  constructor
  · exact hr.chains
  · exact hs.stack_nodup
  · exact hr.units
  · intro c i x hx
    rw [hr.units c]
    apply hs.owns.pieces.mem_iff.mpr
    exact List.mem_append_right _ (g.mem_freeSpans.mpr ⟨c, i, x, hx, rfl⟩)
  · exact hr.counts
  · exact ⟨hr.counts .small, hr.counts .medium, hr.counts .big⟩
  · rw [hr.regions]
    exact hp
  · exact hs.owns.cuts_apart
  · exact hs.owns.tiled.eight_dvd_start hbases
  · exact hs.owns.pieces
  · exact hs.once

variable [Platform π]

theorem chunks_accounted {h : Heap} (hf : h.Fresh) (w : Machine π) {acts : List Action}
    (hv : Valid acts (start h w)) (hh : (after acts (start h w)).machine.Honoured) :
    ∃ lists parts, (after acts (start h w)).Accounted lists parts := by
  have hs := ((hf.mirrors w).after_mirrors hv hh).1
  exact ⟨_, hs.accounted⟩

theorem chunks_accounted_errands :
    Valid errands onArena ∧ (after errands onArena).machine.Honoured ∧
    ∃ lists parts, (after errands onArena).Accounted lists parts := by
  have hv : Valid errands onArena := by decide +kernel
  have hh : (after errands onArena).machine.Honoured := by decide +kernel
  exact ⟨hv, hh, chunks_accounted (.plain 7) _ hv hh⟩

end World

end ChunkHeap
