import Mathlib
import ChunkHeap.Platform.Arena
import ChunkHeap.Proofs.Lending
import ChunkHeap.Proofs.Returning

/-!
# Reservations of oversized chunks

An oversized chunk has the length of its reservation in front of it, and the mark
and the hop in its own first bytes. The three words stand apart from each other
and from the data, so whatever is written to the data, the pointer leads back to
the whole reservation.
-/

set_option autoImplicit false

namespace ChunkHeap

namespace Chunk

/-- Where the length, the mark and the hop of an oversized chunk are. -/
def reservedWords (base ptr : ℕ) : List Span :=
  [⟨base, 8⟩, ⟨base + oversizedPrefix, 4⟩, ⟨ptr - 4, 4⟩]

/-- Data of `n` bytes lies inside a reservation, behind the words that tell of it. -/
structure Fits (base reserved n align ptr : ℕ) : Prop where
  aligned : align ∣ ptr
  behind : base + 16 ≤ ptr
  inside : ptr + n < base + reserved
  apart : (reservedWords base ptr ++ [Span.mk ptr n]).Pairwise Span.Disjoint

/-- A pointer leads back to its reservation. -/
structure LeadsTo (m : Memory) (ptr base reserved : ℕ) : Prop where
  chunk : ofData m ptr = base + 8
  regime : Regime.ofSize (size m (base + 8)) = .oversized
  reservation : reservation m (base + 8) = (base, reserved)

theorem fits_dataAt {base reserved n align : ℕ} (ha : 0 < align)
    (hfits : 16 + n + align ≤ reserved) :
    Fits base reserved n align (dataAt (base + oversizedPrefix) align) := by
  have hafter := after_header (base + oversizedPrefix) ha
  have hlt := dataAt_lt (base + oversizedPrefix) ha
  have hdvd : align ∣ dataAt (base + oversizedPrefix) align := Word.dvd_ceil _ _
  generalize dataAt (base + oversizedPrefix) align = ptr at *
  simp only [oversizedPrefix, headerSize] at hafter hlt
  refine ⟨hdvd, by omega, by omega, ?_⟩
  simp only [reservedWords, oversizedPrefix, List.cons_append, List.nil_append,
    List.pairwise_cons, List.mem_cons, List.not_mem_nil, or_false, forall_eq_or_imp, forall_eq,
    Span.Disjoint, Span.stop, false_imp_iff, implies_true, List.Pairwise.nil, and_true]
  omega

end Chunk

namespace Place.Shows

variable {m : Memory} {base reserved ptr : ℕ}

/-- The words of a whole reservation are read back as they were written. -/
theorem of_oversized (m : Memory) (hlen : reserved < 256 ^ 8)
    (after : base + Chunk.oversizedPrefix + Chunk.headerSize ≤ ptr)
    (before : ptr < base + reserved)
    (hop : ptr - (base + Chunk.oversizedPrefix + Chunk.headerSize) < 256 ^ 4) :
    (Place.reserved base reserved).Shows ((Chunk.oversized m base reserved).2.store (ptr - 4) 4
      (ptr - (base + Chunk.oversizedPrefix + Chunk.headerSize))) ptr := by
  have hchunk : (Place.reserved base reserved).chunk = base + Chunk.oversizedPrefix := rfl
  rw [← hchunk] at after hop ⊢
  exact of_store (headed_oversized hlen) after before hop

/-- Only the data in front of which the words stand may change. -/
theorem agreesOff {m' : Memory} {n : ℕ} (h : (Place.reserved base reserved).Shows m ptr)
    (hm : m.AgreesOff m' ⟨ptr, n⟩) : (Place.reserved base reserved).Shows m' ptr := by
  apply h.congr
  apply hm.on
  have hafter := h.covers.1
  simp only [Span.Disjoint, Span.stop] at *
  omega

theorem leadsTo (h : (Place.reserved base reserved).Shows m ptr) :
    Chunk.LeadsTo m ptr base reserved where
  chunk := h.chunk
  regime := by
    have hword : Chunk.size m (base + 8) = Chunk.oversizedMarker := h.headed.word
    rw [hword]
    decide
  reservation := by
    have hlen : m.load base 8 = reserved := h.headed.length ⟨base, reserved⟩ rfl
    rw [Chunk.reservation, Chunk.oversizedPrefix, Nat.add_sub_cancel, hlen]

end Place.Shows

namespace Heap

variable {π : Type} [Platform π]

/-- An allocation lends a pointer into a whole reservation. Whatever is written to
its data and whatever the heap has become, freeing it gives back just this
reservation. -/
def Reserves (h : Heap) (w : Machine π) (n align base ptr : ℕ) : Prop :=
  ∃ w', h.alloc n align w = (.ok ptr, { h with oversized := h.oversized + 1 }, w') ∧
    ∀ (h' : Heap) (v : Machine π), 0 < h'.oversized → w'.memory.AgreesOff v.memory ⟨ptr, n⟩ →
      h'.free ptr v = (.ok (), { h' with oversized := h'.oversized - 1 },
        (v.report (.releasingOversized base (16 + n + align))).release base (16 + n + align))

variable {h : Heap} {w w₁ : Machine π} {n align base : ℕ}

theorem takeChunk_granted {total : ℕ} (hc : Regime.ofSize total = .oversized)
    (hlimit : total + Chunk.oversizedPrefix < wordLimit)
    (hw : w.reserve (total + Chunk.oversizedPrefix) = (some base, w₁)) :
    h.takeChunk total w = (.ok (base + Chunk.oversizedPrefix),
      { h with oversized := h.oversized + 1 },
      { w₁.report (.reservedOversized base (total + Chunk.oversizedPrefix)) with
        memory := (Chunk.oversized w₁.memory base (total + Chunk.oversizedPrefix)).2 }) := by
  simp only [takeChunk, hc, takeOversized, Nat.not_le.mpr hlimit, if_false, hw]
  rfl

theorem reserves (ha : alignmentAllowed align = true)
    (hbig : Regime.ofSize (Chunk.headerSize + n + align) = .oversized)
    (hlimit : base + (16 + n + align) < wordLimit)
    (hw : w.reserve (16 + n + align) = (some base, w₁)) :
    h.Reserves w n align base (Chunk.dataAt (base + Chunk.oversizedPrefix) align) := by
  obtain ⟨⟨k, rfl⟩, hmax⟩ := alignmentAllowed_iff.mp ha
  have hpos := Nat.two_pow_pos k
  have hafter := Chunk.after_header (base + Chunk.oversizedPrefix) hpos
  have hlt := Chunk.dataAt_lt (base + Chunk.oversizedPrefix) hpos
  have hlen : Chunk.headerSize + n + 2 ^ k + Chunk.oversizedPrefix = 16 + n + 2 ^ k := by
    simp only [Chunk.headerSize, Chunk.oversizedPrefix]
    omega
  have hhop : maxAlignment = 256 ^ 4 := rfl
  have hlimit' : base + Chunk.oversizedPrefix + Chunk.headerSize + 2 ^ k < wordLimit := by
    simp only [Chunk.headerSize, Chunk.oversizedPrefix]
    omega
  have htake := takeChunk_granted (h := h) hbig (by omega) (hlen ▸ hw)
  have halloc := alloc_taken ha (by omega) htake (Chunk.placeData_two_pow hlimit')
  refine ⟨_, halloc, fun h' v hone hm => ?_⟩
  rw [hlen] at hm
  have hword : 16 + n + 2 ^ k < 256 ^ 8 := lt_of_le_of_lt (Nat.le_add_left _ _) hlimit
  have hbefore : Chunk.dataAt (base + Chunk.oversizedPrefix) (2 ^ k) <
      base + (16 + n + 2 ^ k) := by
    simp only [Chunk.headerSize, Chunk.oversizedPrefix] at *
    omega
  have hshows := (Place.Shows.of_oversized w₁.memory hword hafter hbefore (by omega)).agreesOff hm
  exact free_released hshows hone

end Heap

/-- For every reservation that is long enough, the data fits behind the header
words, and no write to the data changes what they tell. -/
theorem reservations_recovered {base reserved n align : ℕ} (hword : base + reserved < 2 ^ 64)
    (ha : align.isPowerOfTwo) (hmax : align ≤ 2 ^ 32) (hfits : 16 + n + align ≤ reserved)
    (hbig : 2 ^ 20 < 8 + n + align) (m : Memory) :
    ∃ ptr m', Chunk.placeData (Chunk.oversized m base reserved).2
        (Chunk.oversized m base reserved).1 align = .ok (ptr, m') ∧
      Chunk.Fits base reserved n align ptr ∧
      (∀ m'' : Memory, m'.AgreesOff m'' ⟨ptr, n⟩ → Chunk.LeadsTo m'' ptr base reserved) ∧
      ∀ {π : Type} [Platform π] (h : Heap) (w w₁ : Machine π),
        w.reserve (16 + n + align) = (some base, w₁) → h.Reserves w n align base ptr := by
  obtain ⟨k, rfl⟩ := ha
  have hpos := Nat.two_pow_pos k
  have hfitted : Chunk.Fits base reserved n (2 ^ k) _ := Chunk.fits_dataAt hpos hfits
  have hlt := Chunk.dataAt_lt (base + Chunk.oversizedPrefix) hpos
  have hlimit : base + Chunk.oversizedPrefix + Chunk.headerSize + 2 ^ k < wordLimit := by
    simp only [Chunk.headerSize, Chunk.oversizedPrefix, wordLimit]
    omega
  have hshows := Place.Shows.of_oversized m (show reserved < 256 ^ 8 by omega)
    (Chunk.after_header (base + Chunk.oversizedPrefix) hpos)
    (lt_of_le_of_lt (Nat.le_add_right _ n) hfitted.inside) (by omega)
  refine ⟨_, _, Chunk.placeData_two_pow hlimit, hfitted, ?_, ?_⟩
  · intro m'' hm
    exact (hshows.agreesOff hm).leadsTo
  · intro π _ h w w₁ hw
    apply Heap.reserves (Heap.alignmentAllowed_iff.mpr ⟨⟨k, rfl⟩, hmax⟩)
      (Regime.ofSize_eq_oversized.mpr hbig) _ hw
    unfold wordLimit
    omega

theorem reservations_recovered_page :
    (13 + 1052688 < 2 ^ 64 ∧ Nat.isPowerOfTwo 4096 ∧ 4096 ≤ 2 ^ 32 ∧
      16 + 1048576 + 4096 ≤ 1052688 ∧ 2 ^ 20 < 8 + 1048576 + 4096) ∧
    ∃ ptr m', Chunk.placeData (Chunk.oversized .zero 13 1052688).2
        (Chunk.oversized .zero 13 1052688).1 4096 = .ok (ptr, m') ∧
      Chunk.Fits 13 1052688 1048576 4096 ptr ∧
      (∀ m'' : Memory, m'.AgreesOff m'' ⟨ptr, 1048576⟩ → Chunk.LeadsTo m'' ptr 13 1052688) ∧
      ∀ {π : Type} [Platform π] (h : Heap) (w w₁ : Machine π),
        w.reserve (16 + 1048576 + 4096) = (some 13, w₁) → h.Reserves w 1048576 4096 13 ptr :=
  have hpower : Nat.isPowerOfTwo 4096 := ⟨12, rfl⟩
  ⟨⟨by decide, hpower, by decide, by decide, by decide⟩,
    reservations_recovered (by decide) hpower (by decide) (by decide) (by decide) .zero⟩

end ChunkHeap
