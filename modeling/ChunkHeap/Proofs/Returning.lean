import Mathlib
import ChunkHeap.Proofs.Mirror
import ChunkHeap.Proofs.Supply

/-!
# Pointers given back

The header words of a pointer lead back to the place that was lent for it, so
its chunk goes to the bucket of its size or its reservation to the platform.
-/

set_option autoImplicit false

namespace ChunkHeap

namespace Heap

variable {π : Type} [Platform π] {h : Heap} {w : Machine π} {ptr : ℕ}

/-- A pointer to a pooled chunk puts it in front of its bucket. -/
theorem free_shelved {c : SizeClass} {i : Fin bucketCount} {chunk : ℕ}
    (hp : (Place.pooled c chunk (c.bucketSize i)).Shows w.memory ptr)
    (hu : (h.tables c).unit = c.unit) (hc : Regime.ofSize (c.bucketSize i) = .pooled c) :
    h.free ptr w = (.ok (), h.withTable c { h.tables c with
      heads := (h.tables c).heads.set i.val (some chunk) i.isLt
      count := (h.tables c).count + 1 },
      { w with memory := Chunk.setNext w.memory chunk ((h.tables c).heads.get i) }) := by
  have hchunk : Chunk.ofData w.memory ptr = chunk := hp.chunk
  have hword : Chunk.size w.memory chunk = c.bucketSize i := hp.headed.word
  simp only [free, hchunk, hword, hc, BucketTable.put_eq hu i chunk w.memory]

/-- A pointer to an oversized chunk gives its whole reservation back. -/
theorem free_released {base len : ℕ} (hp : (Place.reserved base len).Shows w.memory ptr)
    (hone : 1 ≤ h.oversized) :
    h.free ptr w = (.ok (), { h with oversized := h.oversized - 1 },
      (w.report (.releasingOversized base len)).release base len) := by
  have hchunk : Chunk.ofData w.memory ptr = base + Chunk.oversizedPrefix := hp.chunk
  have hword : Chunk.size w.memory (base + Chunk.oversizedPrefix) = Chunk.oversizedMarker :=
    hp.headed.word
  have hlen : w.memory.load base 8 = len := hp.headed.length ⟨base, len⟩ rfl
  have hres : Chunk.reservation w.memory (base + Chunk.oversizedPrefix) = (base, len) := by
    rw [Chunk.reservation, Nat.add_sub_cancel, hlen]
  have hmarker : Regime.ofSize Chunk.oversizedMarker = .oversized := by decide
  simp only [free, hchunk, hword, hmarker, freeOversized, hres, Word.sub_eq_ok hone]

end Heap

namespace World.Mirrors

variable {π : Type} {s : World π} {g : Ideal}

theorem detach (hs : s.Mirrors g) {l : Loan} (hl : l ∈ s.loans) :
    Kept [l.place] s.heap s.machine.memory (g.forget l.ptr) s.machine.held s.cuts ∧
      (g.forget l.ptr).live = (s.without l.ptr).map fun l => (l.ptr, l.place) := by
  obtain ⟨before, after, hsplit, hwithout, hne⟩ := hs.exists_split hl
  have hlive : (g.forget l.ptr).live = (s.without l.ptr).map fun l => (l.ptr, l.place) := by
    rw [Ideal.forget, hs.live, List.filter_map]
    rfl
  have hshows : ∀ q ∈ (g.forget l.ptr).live, q.2.Shows s.machine.memory q.1 := by
    intro q hq
    exact hs.kept.represents.live q (List.mem_of_mem_filter hq)
  have howns : Owns (g.forget l.ptr) (l.place :: (g.forget l.ptr).live.map Prod.snd)
      s.machine.held s.cuts := by
    have hall := hs.owns
    rw [hsplit] at hall
    rw [hlive, List.map_map, hwithout]
    exact (hall.perm (List.perm_middle.map _)).withLive _
  exact ⟨⟨{ hs.kept.represents with live := hshows }, howns⟩, hlive⟩

variable [Platform π]

theorem free_pooled (hs : s.Mirrors g) {l : Loan} (hl : l ∈ s.loans) {c : SizeClass}
    {i : Fin bucketCount} (hc : Regime.ofSize (c.bucketSize i) = .pooled c)
    (hp : l.place = .pooled c l.chunk (c.bucketSize i)) :
    s.heap.free l.ptr s.machine = (.ok (), s.heap.withTable c { s.heap.tables c with
      heads := (s.heap.tables c).heads.set i.val (some l.chunk) i.isLt
      count := (s.heap.tables c).count + 1 },
      { s.machine with
        memory := Chunk.setNext s.machine.memory l.chunk ((s.heap.tables c).heads.get i) }) :=
  Heap.free_shelved (hp ▸ hs.shows hl) (hs.kept.represents.units c) hc

theorem free_reserved (hs : s.Mirrors g) {l : Loan} (hl : l ∈ s.loans) {base len : ℕ}
    (hp : l.place = .reserved base len) :
    s.heap.free l.ptr s.machine = (.ok (), { s.heap with oversized := s.heap.oversized - 1 },
      (s.machine.report (.releasingOversized base len)).release base len) := by
  have hone : 1 ≤ s.heap.oversized := by
    rw [hs.kept.represents.oversized, hs.owns.oversized]
    apply List.length_pos_of_mem (a := ⟨base, len⟩)
    exact List.mem_filterMap.mpr ⟨l.place, List.mem_map_of_mem hl, by rw [hp]; rfl⟩
  exact Heap.free_released (hp ▸ hs.shows hl) hone

/-- The heap gives back the place that the ideal heap remembers. -/
theorem free_follows (hs : s.Mirrors g) {l : Loan} (hl : l ∈ s.loans) :
    ∃ h' w', s.heap.free l.ptr s.machine = (.ok (), h', w') ∧
      (s.settle h' w' (s.without l.ptr)).Mirrors (g.free l.ptr s.machine.provider).1 ∧
      w'.provider = (g.free l.ptr s.machine.provider).2 := by
  obtain ⟨hkept, hlive⟩ := hs.detach hl
  have hfree : g.free l.ptr s.machine.provider =
      (g.forget l.ptr).giveBack l.place s.machine.provider := by
    rw [Ideal.free, hs.lookup_eq hl]
  have hcuts : s.heap.regions.grown s.heap.regions ++ s.cuts = s.cuts := by
    rw [RegionSource.grown_self, List.nil_append]
  have hloans : ∀ l' ∈ s.without l.ptr, l'.Sound s.heap.id :=
    fun l' hl' => hs.loans l' (List.mem_of_mem_filter hl')
  cases hc : Regime.ofSize l.total with
  | pooled c =>
    obtain ⟨i, hi, hplace⟩ := Place.of_pooled l.total_pos hc
    have hp : l.place = .pooled c l.chunk (c.bucketSize i) := hplace l.chunk
    have hlink : Span.Within ⟨l.chunk, 8⟩ ⟨l.chunk, c.bucketSize i⟩ :=
      ⟨Nat.le_refl _, Nat.add_le_add_left (c.eight_le_bucketSize i) _⟩
    -- the old head is null or an address, so the link can hold it
    have hnext : Chunk.next? (Chunk.setNext s.machine.memory l.chunk
        ((s.heap.tables c).heads.get i)) l.chunk = (s.heap.tables c).heads.get i :=
      Chunk.next?_setNext (hkept.head_bounds c i)
    rw [hp] at hkept hfree
    have hpush := (hkept.write fun t ht => Memory.agreesOn_store _ hlink ht).push hnext
    refine ⟨_, _, hs.free_pooled hl hi hp, ⟨?_, ?_, hloans⟩, ?_⟩
    · rw [hfree]
      rw [← hcuts] at hpush
      exact hpush
    · rw [hfree]
      exact hlive
    · rw [hfree]
      rfl
  | oversized =>
    obtain ⟨base, len, hp⟩ : ∃ base len, l.place = .reserved base len := by
      rw [Loan.place, Place.of, hc]
      exact ⟨_, _, rfl⟩
    rw [hp] at hkept hfree
    refine ⟨_, _, hs.free_reserved hl hp, ⟨?_, ?_, hloans⟩, ?_⟩
    · rw [hfree]
      have hheld := (s.machine.report (.releasingOversized base len)).held_release base len
      rw [Machine.held_report] at hheld
      have hrelease := hkept.release
      rw [← hheld, ← hcuts] at hrelease
      exact hrelease
    · rw [hfree]
      exact hlive
    · rw [hfree, Machine.provider_release, Machine.provider_report]
      rfl

end World.Mirrors

end ChunkHeap
