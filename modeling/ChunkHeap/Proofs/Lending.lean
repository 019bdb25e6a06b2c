import Mathlib
import ChunkHeap.Proofs.Mirror
import ChunkHeap.Proofs.Supply

/-!
# Memory lent

An allocation is refused and leaves all as it was, or the chunk that was taken
for it gets its hop recorded and is the loan of a new pointer.
-/

set_option autoImplicit false

namespace ChunkHeap

theorem Kept.placeData {h : Heap} {m : Memory} {g : Ideal} {held cuts : List Span}
    {total chunk align : ℕ} (hk : Kept [Place.of total chunk] h m g held cuts)
    (hh : (Place.of total chunk).Headed m) (ha : Heap.alignmentAllowed align = true)
    (ht : Chunk.headerSize + align ≤ total) :
    Chunk.oversizedPrefix ≤ chunk ∧
    ∃ m', Chunk.placeData m chunk align = .ok (Chunk.dataAt chunk align, m') ∧
      Kept [] h m' { g with
        live := (Chunk.dataAt chunk align, Place.of total chunk) :: g.live } held cuts := by
  obtain ⟨⟨k, rfl⟩, hmax⟩ := Heap.alignmentAllowed_iff.mp ha
  obtain ⟨hlow, hhigh⟩ := hk.hand_within
  have hchunk : Chunk.oversizedPrefix ≤ chunk := hlow.trans (Place.of_start total chunk)
  have hafter := Chunk.after_header chunk (Nat.two_pow_pos k)
  have hlt := Chunk.dataAt_lt chunk (Nat.two_pow_pos k)
  have hstop := Place.of_stop total hchunk
  have hplace := Place.chunk_of total hchunk
  have hlimit : layoutLimit < wordLimit := by decide
  have hhop : Heap.maxAlignment = 256 ^ 4 := rfl
  have hlend := hk.lend hh (by rwa [hplace]) (hlt.trans_le (by omega)) (by rw [hplace]; omega)
  rw [hplace] at hlend
  exact ⟨hchunk, _, Chunk.placeData_two_pow (by omega), hlend⟩

theorem Heap.totalSize_eq {size align : ℕ} (h : Chunk.headerSize + size + align < wordLimit) :
    totalSize size align = .ok (Chunk.headerSize + size + align) := by
  rw [totalSize, Word.add_eq_ok (by omega)]
  exact Word.add_eq_ok h

theorem Heap.totalSize_error {size align : ℕ}
    (h : wordLimit ≤ Chunk.headerSize + size + align) :
    totalSize size align = .error .addOverflow := by
  rw [totalSize, Word.add]
  split
  · exact if_neg (Nat.not_lt.mpr h)
  · rfl

variable {π : Type} {s : World π} {g : Ideal}

/-- An allocation is refused and nothing changes, or the pointer is lent,
whether as a block or not. -/
inductive Lent (s : World π) (g : Ideal) (size align : ℕ) [Platform π] :
    Except Failure ℕ × Heap × Machine π → Except Refusal ℕ × Ideal × Provider π → Prop
  | refused {w' : Machine π} {why : Refusal} (memory : w'.memory = s.machine.memory)
      (held : w'.held = s.machine.held) :
      Lent s g size align (.error (.refused why), s.heap, w') (.error why, g, w'.provider)
  | lent {ptr : ℕ} {h' : Heap} {w' : Machine π} {g' : Ideal} (id : h'.id = s.heap.id)
      (mirrors : ∀ block : Option Block, (∀ b ∈ block, b = ⟨ptr, size,
        Regime.ofSize (Chunk.headerSize + size + align), s.heap.id⟩) →
        (s.settle h' w' (s.lend ptr size align block)).Mirrors g') :
      Lent s g size align (.ok ptr, h', w') (.ok ptr, g', w'.provider)

variable [Platform π]

theorem World.Mirrors.lend (hs : s.Mirrors g) {size align chunk : ℕ} {h' : Heap} {w' : Machine π}
    {g' : Ideal} (ha : Heap.alignmentAllowed align = true)
    (hfits : Chunk.headerSize + size + align < wordLimit) (hchunk : Chunk.oversizedPrefix ≤ chunk)
    (hfor : s.chunkFor size align = chunk) (hid : h'.id = s.heap.id) (hlive : g'.live = g.live)
    (hkept : Kept [] h' w'.memory { g' with live := (Chunk.dataAt chunk align,
      Place.of (Chunk.headerSize + size + align) chunk) :: g'.live } w'.held
        (s.heap.regions.grown h'.regions ++ s.cuts)) {block : Option Block}
    (hblock : ∀ b ∈ block, b = ⟨Chunk.dataAt chunk align, size,
      Regime.ofSize (Chunk.headerSize + size + align), s.heap.id⟩) :
    (s.settle h' w' (s.lend (Chunk.dataAt chunk align) size align block)).Mirrors { g' with
      live := (Chunk.dataAt chunk align, Place.of (Chunk.headerSize + size + align) chunk) ::
        g'.live } where
  kept := hkept
  live := by
    rw [hlive, hs.live, ← hfor]
    rfl
  loans := by
    rw [settle, World.lend, hfor, hid]
    exact List.forall_mem_cons.mpr ⟨⟨ha, hfits, hchunk, rfl, hblock⟩, hs.loans⟩

section

variable {h h' : Heap} {w w' : Machine π} {p p' : Provider π} {g' : Ideal} {size align chunk : ℕ}
  (ha : Heap.alignmentAllowed align = true)
  (hfits : Chunk.headerSize + size + align < wordLimit)
include ha hfits

theorem Heap.alloc_refused {failure : Failure}
    (hx : h.takeChunk (Chunk.headerSize + size + align) w = (.error failure, h', w')) :
    h.alloc size align w = (.error failure, h', w') := by
  simp [alloc, ha, totalSize_eq hfits, hx]

theorem Heap.alloc_taken {data : ℕ} {m : Memory}
    (hx : h.takeChunk (Chunk.headerSize + size + align) w = (.ok chunk, h', w'))
    (hd : Chunk.placeData w'.memory chunk align = .ok (data, m)) :
    h.alloc size align w = (.ok data, h', { w' with memory := m }) := by
  simp [alloc, ha, totalSize_eq hfits, hx, hd]

theorem Ideal.alloc_refused {why : Refusal}
    (hy : g.take (Chunk.headerSize + size + align) p = (.error why, g', p')) :
    g.alloc size align p = (.error why, g', p') := by
  simp [alloc, ha, Nat.not_le.mpr hfits, hy]

theorem Ideal.alloc_taken
    (hy : g.take (Chunk.headerSize + size + align) p = (.ok chunk, g', p')) :
    g.alloc size align p = (.ok (Chunk.dataAt chunk align), { g' with
      live := (Chunk.dataAt chunk align, Place.of (Chunk.headerSize + size + align) chunk) ::
        g'.live }, p') := by
  simp [alloc, ha, Nat.not_le.mpr hfits, hy]

/-- Data is placed without a call to the platform. -/
theorem Heap.honoured_takeChunk (hh : (h.alloc size align w).2.2.Honoured) :
    (h.takeChunk (Chunk.headerSize + size + align) w).2.2.Honoured := by
  rcases hx : h.takeChunk (Chunk.headerSize + size + align) w with ⟨_ | chunk, h', w'⟩
  · rwa [alloc_refused ha hfits hx] at hh
  · simp only [alloc, ha, totalSize_eq hfits, hx, Bool.not_true, Bool.false_eq_true,
      if_false] at hh
    split at hh
    · exact hh
    · exact hh

end

theorem alloc_lent (hs : s.Mirrors g) {size align : ℕ}
    (hh : (s.heap.alloc size align s.machine).2.2.Honoured) :
    Lent s g size align (s.heap.alloc size align s.machine)
      (g.alloc size align s.machine.provider) := by
  by_cases ha : Heap.alignmentAllowed align = true
  · by_cases hfits : Chunk.headerSize + size + align < wordLimit
    · have hpos := Chunk.total_pos size align
      have hsup := takeChunk_supplied hs.kept hpos (Heap.honoured_takeChunk ha hfits hh)
      rcases hx : s.heap.takeChunk (Chunk.headerSize + size + align) s.machine with ⟨x, h', w'⟩
      rcases hy : g.take (Chunk.headerSize + size + align) s.machine.provider with ⟨y, g', p'⟩
      rw [hx, hy] at hsup
      cases hsup with
      | refused memory held =>
        rw [Heap.alloc_refused ha hfits hx, Ideal.alloc_refused ha hfits hy]
        exact .refused memory held
      | @taken chunk _ _ _ kept headed live same =>
        obtain ⟨hchunk, m', hdata, hkept⟩ := kept.placeData headed ha (by omega)
        have hfor : s.chunkFor size align = chunk := by
          rw [World.chunkFor, Heap.totalSize_eq hfits]
          simp only [hx]
        rw [Heap.alloc_taken ha hfits hx hdata, Ideal.alloc_taken ha hfits hy]
        apply Lent.lent same
        intro block hblock
        exact hs.lend ha hfits hchunk hfor same live hkept hblock
    · have hlimit := Nat.le_of_not_lt hfits
      simp only [Heap.alloc, Ideal.alloc, ha, Heap.totalSize_error hlimit, if_pos hlimit]
      exact .refused rfl rfl
  · simp only [Heap.alloc, Ideal.alloc, ha]
    exact .refused rfl rfl

theorem World.Mirrors.allocate_lent (hs : s.Mirrors g) {layout : Layout}
    (hh : (s.heap.alloc layout.size layout.align s.machine).2.2.Honoured) :
    (∃ why w', s.heap.allocate layout s.machine = (.error (.refused why), s.heap, w') ∧
      g.alloc layout.size layout.align s.machine.provider = (.error why, g, w'.provider) ∧
      w'.memory = s.machine.memory ∧ w'.held = s.machine.held) ∨
    (∃ ptr h' w' g', s.heap.allocate layout s.machine =
        (.ok (g'.block ptr layout.size layout.align), h', w') ∧
      g.alloc layout.size layout.align s.machine.provider = (.ok ptr, g', w'.provider) ∧
      (s.settle h' w' (s.lend ptr layout.size layout.align
        (some (g'.block ptr layout.size layout.align)))).Mirrors g') := by
  have hl := alloc_lent hs hh
  unfold Heap.allocate
  generalize s.heap.alloc layout.size layout.align s.machine = x at hl ⊢
  generalize g.alloc layout.size layout.align s.machine.provider = y at hl ⊢
  cases hl with
  | refused memory held => exact Or.inl ⟨_, _, rfl, rfl, memory, held⟩
  | @lent ptr h' w' g' same mirrors =>
    have hplain := mirrors none (by simp)
    have hfits := (hplain.loans _ List.mem_cons_self).fits
    have hid : s.heap.id = g'.id := same ▸ hplain.kept.represents.id
    have hblock := mirrors (some (g'.block ptr layout.size layout.align)) (by
      simp [Ideal.block, hid])
    right
    use ptr, h', w', g'
    constructor
    · simp only [Heap.totalSize_eq hfits, same, hid]
      rfl
    · exact ⟨rfl, hblock⟩

end ChunkHeap
