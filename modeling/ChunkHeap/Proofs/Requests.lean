import ChunkHeap.Heap.Basic

/-!
# What a request does to a machine

A request reserves, reports and writes to memory, in some order, and does nothing
else. So what these three keep is kept by the request, whatever its outcome.
-/

set_option autoImplicit false

namespace ChunkHeap

variable {π : Type} [Platform π]

/-- A property that a machine does not lose by anything that requests do. -/
structure Machine.Stable (P : Machine π → Prop) : Prop where
  reserve : ∀ w len, P w → P (w.reserve len).2
  report : ∀ w e, P w → P (w.report e)
  write : ∀ (w : Machine π) (m : Memory), P w → P { w with memory := m }

namespace Machine.Stable

variable {P : Machine π → Prop} {w : Machine π}

theorem extend (hP : Stable P) (h : P w) (r : RegionSource) (size : Nat) :
    P (r.extend size w).2.2 := by
  have hr := hP.reserve w r.regionSize h
  unfold RegionSource.extend
  split
  · next hx => rwa [hx] at hr
  · next hx =>
    rw [hx] at hr
    split
    · exact hr
    · exact hP.report _ _ hr

theorem carve (hP : Stable P) (h : P w) (r : RegionSource) (size : Nat) :
    P (r.carve size w).2.2 := by
  unfold RegionSource.carve
  split
  · exact h
  · split
    · exact h
    · exact h
    · exact hP.extend h r size

theorem obtain (hP : Stable P) (h : P w) (t : BucketTable) (padded : Nat)
    (i : Fin bucketCount) (r : RegionSource) : P (t.obtain padded i r w).2.2.2 := by
  unfold BucketTable.obtain
  split
  · exact h
  · exact hP.carve (hP.report _ _ h) r padded

theorem take (hP : Stable P) (h : P w) (t : BucketTable) (size : Nat) (r : RegionSource) :
    P (t.take size r w).2.2.2 := by
  unfold BucketTable.take
  split
  · exact h
  · next padded i _ =>
    have ho := hP.obtain h t padded i r
    split
    · next hx => rwa [hx] at ho
    · next hx =>
      rw [hx] at ho
      exact hP.write _ _ ho

theorem takeOversized (hP : Stable P) (h : P w) (heap : Heap) (total : Nat) :
    P (heap.takeOversized total w).2.2 := by
  have hr := hP.reserve w (total + Chunk.oversizedPrefix) h
  unfold Heap.takeOversized
  simp only
  split
  · exact h
  · split
    · next hx => rwa [hx] at hr
    · next hx =>
      rw [hx] at hr
      exact hP.write _ _ (hP.report _ _ hr)

theorem takeChunk (hP : Stable P) (h : P w) (heap : Heap) (total : Nat) :
    P (heap.takeChunk total w).2.2 := by
  unfold Heap.takeChunk
  split
  · exact hP.take h _ total _
  · exact hP.takeOversized h heap total

theorem alloc (hP : Stable P) (h : P w) (heap : Heap) (size align : Nat) :
    P (heap.alloc size align w).2.2 := by
  unfold Heap.alloc
  split
  · exact h
  · split
    · exact h
    · next total _ =>
      have ht := hP.takeChunk h heap total
      split
      · next hx => rwa [hx] at ht
      · next hx =>
        rw [hx] at ht
        split
        · exact ht
        · exact hP.write _ _ ht

end Machine.Stable

end ChunkHeap
