import Mathlib
import ChunkHeap.Proofs.Ledger
import ChunkHeap.Proofs.Lending

/-!
# What operations write

Apart from bytes that the platform fills when it grants a range, an allocation
writes the header words of the chunk that it hands out, and nothing if it hands
out none.
-/

set_option autoImplicit false

namespace ChunkHeap

/-- No span covers the address. -/
def Outside (spans : List Span) (x : ℕ) : Prop := ∀ t ∈ spans, ¬ t.Covers x

instance (spans : List Span) (x : ℕ) : Decidable (Outside spans x) :=
  inferInstanceAs (Decidable (∀ _ ∈ _, _))

theorem Outside.mono {spans spans' : List Span} {x : ℕ} (h : Outside spans' x)
    (hs : spans ⊆ spans') : Outside spans x :=
  fun t ht => h t (hs ht)

namespace Machine

variable {π : Type} [Platform π] {w w' w'' : Machine π} {spans : List Span}

/-- What an operation finds in memory before it writes: the bytes from before, or
these with a range in them that the platform has granted to the operation. -/
inductive Provides (w w' : Machine π) : Memory → Prop
  | kept : Provides w w' w.memory
  | granted {len : ℕ} {g : Grant} {p : π} (grant : Platform.reserve w.platform len = (some g, p))
      (noted : w'.provider.calls = w.provider.calls ++ [.reserved len (some g.base)]) :
      Provides w w' (w.memory.overlay g.base len g.contents)

def WroteOnly (w w' : Machine π) (spans : List Span) : Prop :=
  ∃ m, w.Provides w' m ∧ ∀ x, Outside spans x → m x = w'.memory x

namespace WroteOnly

theorem of_memory (h : w'.memory = w.memory) : w.WroteOnly w' [] :=
  ⟨w.memory, .kept, fun x _ => congrFun h.symm x⟩

theorem mono {spans' : List Span} (h : w.WroteOnly w' spans) (hs : spans ⊆ spans') :
    w.WroteOnly w' spans' := by
  obtain ⟨m, hm, hx⟩ := h
  exact ⟨m, hm, fun x ho => hx x (ho.mono hs)⟩

theorem write (h : w.WroteOnly w' spans) (a n : ℕ) (f : ℕ → UInt8) :
    w.WroteOnly { w' with memory := w'.memory.overlay a n f } (⟨a, n⟩ :: spans) := by
  obtain ⟨m, hprov, hx⟩ := h
  refine ⟨m, ?_, fun x ho => ?_⟩
  · cases hprov with
    | kept => exact .kept
    | granted grant noted => exact .granted grant noted
  · obtain ⟨hfirst, hrest⟩ := List.forall_mem_cons.mp ho
    rw [hx x hrest]
    symm
    apply Memory.overlay_outside
    simp only [Span.Covers, Span.stop] at hfirst
    omega

theorem store (h : w.WroteOnly w' spans) (a width n : ℕ) :
    w.WroteOnly { w' with memory := w'.memory.store a width n } (⟨a, width⟩ :: spans) :=
  h.write a width _

theorem report (h : w.WroteOnly w' spans) (e : Event) : w.WroteOnly (w'.report e) spans := by
  obtain ⟨m, hprov, hx⟩ := h
  refine ⟨m, ?_, hx⟩
  cases hprov with
  | kept => exact .kept
  | granted grant noted => exact .granted grant ((w'.provider_report e).symm ▸ noted)

theorem of_report {e : Event} (h : (w.report e).WroteOnly w' spans) : w.WroteOnly w' spans := by
  obtain ⟨m, hprov, hx⟩ := h
  refine ⟨m, ?_, hx⟩
  cases hprov with
  | kept => exact .kept
  | granted grant noted => exact .granted grant (w.provider_report e ▸ noted)

/-- Memory of a loan keeps its bytes outside the spans, because nobody is granted
what is held. -/
theorem eq_outside (h : w.WroteOnly w' spans) (hh : w'.Honoured) {r : Span} (hr : r ∈ w.held)
    {x : ℕ} (hx : r.Covers x) (ho : Outside spans x) : w.memory x = w'.memory x := by
  obtain ⟨m, hprov, hm⟩ := h
  rw [← hm x ho]
  cases hprov with
  | kept => rfl
  | @granted len g p grant noted =>
    have hcalls := (honouredFrom_calls [] w'.journal).mpr hh
    rw [show w'.journal.filter Note.isCall = _ from noted, honouredFrom_append] at hcalls
    have hg : Grantable ⟨g.base, len⟩ (heldFrom [] w.provider.calls) := hcalls.2.1
    rw [show heldFrom [] w.provider.calls = w.held from heldFrom_calls _ _] at hg
    have hd := hg.apart r hr
    symm
    apply Memory.overlay_outside
    simp only [Span.Disjoint, Span.Covers, Span.stop] at hd hx
    omega

end WroteOnly

theorem wrote_reserve (w : Machine π) (len : ℕ) : w.WroteOnly (w.reserve len).2 [] := by
  rcases hr : Platform.reserve w.platform len with ⟨_ | g, p⟩
  · have heq : w.reserve len = (none, { w with platform := p }.log [.reserved len none]) := by
      simp only [reserve, hr]
    rw [heq]
    exact .of_memory rfl
  · have heq : w.reserve len = (some g.base, { w with
        memory := w.memory.overlay g.base len g.contents
        platform := p }.log [.reserved len (some g.base)]) := by
      simp only [reserve, hr]
    rw [heq]
    refine ⟨_, .granted hr ?_, fun x _ => rfl⟩
    rw [provider_log]
    rfl

end Machine

theorem Chunk.placeData_ok {m m' : Memory} {chunk align data : ℕ}
    (h : placeData m chunk align = .ok (data, m')) : ∃ hop, m' = m.store (data - 4) 4 hop := by
  unfold placeData at h
  rcases hh : hop chunk align with fault | n
  · rw [hh] at h
    cases h
  · rw [hh] at h
    cases h
    exact ⟨n, rfl⟩

/-- The spans that belong to the outcome of an operation, none if it failed. -/
def onSuccess {ε α : Type} (spans : α → List Span) : Except ε α → List Span
  | .error _ => []
  | .ok a => spans a

namespace Place

/-- The words written when a chunk is taken. -/
def header : Place → List Span
  | .pooled _ chunk _ => [⟨chunk, 4⟩]
  | .reserved base _ => [⟨base + Chunk.oversizedPrefix, 4⟩, ⟨base, 8⟩]

/-- The word written when a chunk is put back. -/
def link : Place → List Span
  | .pooled _ chunk _ => [⟨chunk, 8⟩]
  | .reserved .. => []

end Place

open Machine

variable {π : Type} [Platform π]

theorem RegionSource.wrote_extend (r : RegionSource) (size : ℕ) (w : Machine π) :
    w.WroteOnly (r.extend size w).2.2 [] := by
  have hr := w.wrote_reserve r.regionSize
  unfold extend
  split
  · next h => rwa [h] at hr
  · next base w' h =>
    have hw : w.WroteOnly w' [] := by rwa [h] at hr
    split
    · exact hw
    · exact hw.report _

theorem RegionSource.wrote_carve (r : RegionSource) (size : ℕ) (w : Machine π) :
    w.WroteOnly (r.carve size w).2.2 [] := by
  unfold carve
  split
  · exact .of_memory rfl
  · split
    · exact .of_memory rfl
    · exact .of_memory rfl
    · exact r.wrote_extend size w

theorem BucketTable.wrote_obtain (t : BucketTable) (padded : ℕ) (i : Fin bucketCount)
    (r : RegionSource) (w : Machine π) : w.WroteOnly (t.obtain padded i r w).2.2.2 [] := by
  unfold obtain
  split
  · exact .of_memory rfl
  · exact (r.wrote_carve _ _).of_report

theorem BucketTable.wrote_take (t : BucketTable) (size : ℕ) (r : RegionSource) (w : Machine π) :
    w.WroteOnly (t.take size r w).2.2.2
      (onSuccess (fun chunk => [⟨chunk, 4⟩]) (t.take size r w).1) := by
  unfold take
  split
  · exact .of_memory rfl
  · next padded i _ =>
    have ho := t.wrote_obtain padded i r w
    split
    · next h => rwa [h] at ho
    · next chunk t' r' w' h =>
      rw [h] at ho
      exact ho.store chunk 4 padded

namespace Heap

theorem wrote_takeOversized (h : Heap) {total : ℕ} (hc : Regime.ofSize total = .oversized)
    (w : Machine π) : w.WroteOnly (h.takeOversized total w).2.2
      (onSuccess (fun chunk => (Place.of total chunk).header) (h.takeOversized total w).1) := by
  have hr := w.wrote_reserve (total + Chunk.oversizedPrefix)
  unfold takeOversized
  simp only
  split
  · exact .of_memory rfl
  · split
    · next h => rwa [h] at hr
    · next base w' h =>
      have hw : w.WroteOnly w' [] := by rwa [h] at hr
      have hlength := (hw.report (.reservedOversized base (total + Chunk.oversizedPrefix))).store
        base 8 (total + Chunk.oversizedPrefix)
      change w.WroteOnly _ (Place.of total (base + Chunk.oversizedPrefix)).header
      rw [Place.of_oversized hc]
      exact hlength.store (base + Chunk.oversizedPrefix) 4 Chunk.oversizedMarker

theorem wrote_takeChunk (h : Heap) (total : ℕ) (w : Machine π) :
    w.WroteOnly (h.takeChunk total w).2.2
      (onSuccess (fun chunk => (Place.of total chunk).header) (h.takeChunk total w).1) := by
  unfold takeChunk
  split
  · next c hc =>
    have ht := (h.tables c).wrote_take total h.regions w
    have hplace : (fun chunk => (Place.of total chunk).header) = fun chunk => [⟨chunk, 4⟩] := by
      funext chunk
      rw [Place.of, hc]
      rfl
    rw [hplace]
    exact ht
  · next hc => exact h.wrote_takeOversized hc w

end Heap

namespace World

variable (s : World π)

/-- The words written for a pointer to a chunk for `size` bytes. -/
def headerFor (size align ptr : ℕ) : List Span :=
  ⟨ptr - 4, 4⟩ ::
    (Place.of (Chunk.headerSize + size + align) (s.chunkFor size align)).header

theorem wrote_alloc_ok {size align ptr : ℕ} {h' : Heap} {w' : Machine π}
    (hx : s.heap.alloc size align s.machine = (.ok ptr, h', w')) :
    s.machine.WroteOnly w' (s.headerFor size align ptr) := by
  have ht := s.heap.wrote_takeChunk (Chunk.headerSize + size + align) s.machine
  unfold Heap.alloc at hx
  split at hx
  · simp at hx
  · by_cases hfits : Chunk.headerSize + size + align < wordLimit
    · rw [Heap.totalSize_eq hfits] at hx
      simp only at hx
      split at hx
      · simp at hx
      · next chunk h'' w'' htake =>
        have hchunk : s.chunkFor size align = chunk := by
          rw [chunkFor, Heap.totalSize_eq hfits]
          simp only [htake]
        rw [htake] at ht
        split at hx
        · simp at hx
        · next data memory hplace =>
          obtain ⟨rfl, -, rfl⟩ : data = ptr ∧ h'' = h' ∧ { w'' with memory } = w' := by
            simpa using hx
          obtain ⟨hop, rfl⟩ := Chunk.placeData_ok hplace
          rw [headerFor, hchunk]
          exact WroteOnly.store ht (data - 4) 4 hop
    · rw [Heap.totalSize_error (Nat.le_of_not_lt hfits)] at hx
      simp at hx

end World

end ChunkHeap
