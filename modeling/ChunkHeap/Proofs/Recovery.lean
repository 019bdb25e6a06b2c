import Mathlib
import ChunkHeap.Proofs.Simulation

/-!
# Chunks go back where they came from

While a pointer is live its hop leads to the chunk that was taken for it and
the size word there tells the bucket or the reservation of the chunk, whatever
happens to other pointers and whatever users write.
-/

set_option autoImplicit false

namespace ChunkHeap

def Action.asks? : Action → Option (ℕ × ℕ)
  | .alloc size align => some (size, align)
  | .allocate layout _ => some (layout.size, layout.align)
  | _ => none

theorem Action.eq_of_asks {a : Action} {size align : ℕ} (ha : a.asks? = some (size, align)) :
    a = .alloc size align ∨
      ∃ layout zeroed, a = .allocate layout zeroed ∧ layout.size = size ∧ layout.align = align := by
  cases a with
  | alloc n k =>
    obtain ⟨rfl, rfl⟩ : n = size ∧ k = align := by simpa [asks?] using ha
    exact Or.inl rfl
  | allocate layout zeroed =>
    have hl : layout.size = size ∧ layout.align = align := by simpa [asks?] using ha
    exact Or.inr ⟨layout, zeroed, rfl, hl⟩
  | free ptr => simp [asks?] at ha
  | deallocate block => simp [asks?] at ha
  | paddedSize block => simp [asks?] at ha
  | write addr bytes => simp [asks?] at ha

def Answer.block? : Answer → Option Block
  | .block (.ok b) => some b
  | _ => none

/-- The pointer handed out by an answer, alone or in a block. -/
def Answer.ptr? : Answer → Option ℕ
  | .pointer (.ok ptr) => some ptr
  | answer => answer.block?.map Block.ptr

theorem Answer.ptr?_of_block {x : Answer} {b : Block} (h : x.block? = some b) :
    x.ptr? = some b.ptr := by
  rcases x with _ | (_ | b') | _ | _ | _
  · cases h
  · cases h
  · obtain rfl := Option.some.inj h
    rfl
  all_goals cases h

namespace World

variable {π : Type} {s : World π} {g : Ideal}

/-- A loan stays while its pointer is not given back. -/
theorem mem_loans_step [Platform π] {l : Loan} (hl : l ∈ s.loans) {a : Action}
    (ha : a.returns? ≠ some l.ptr) : l ∈ (s.step a).2.loans := by
  cases a with
  | alloc size align =>
    unfold step
    simp only
    split
    · exact hl
    · exact List.mem_cons_of_mem _ hl
  | allocate layout zeroed =>
    simp only [step]
    split
    · exact hl
    · exact List.mem_cons_of_mem _ hl
  | free ptr =>
    have hne : l.ptr ≠ ptr := fun h => ha (by rw [h]; rfl)
    exact List.mem_filter.mpr ⟨hl, by simpa using hne⟩
  | deallocate block =>
    have hne : l.ptr ≠ block.ptr := fun h => ha (by rw [h]; rfl)
    exact List.mem_filter.mpr ⟨hl, by simpa using hne⟩
  | paddedSize block => exact hl
  | write addr bytes => exact hl

theorem mem_loans_after [Platform π] {l : Loan} {acts : List Action} (hl : l ∈ s.loans)
    (ha : ∀ a ∈ acts, a.returns? ≠ some l.ptr) : l ∈ (after acts s).loans := by
  induction acts generalizing s with
  | nil => exact hl
  | cons a acts ih =>
    obtain ⟨hfirst, hrest⟩ := List.forall_mem_cons.mp ha
    exact ih (mem_loans_step hl hfirst) hrest

theorem loans_step [Platform π] {a : Action} {size align ptr : ℕ}
    (ha : a.asks? = some (size, align)) (hp : (s.step a).1.ptr? = some ptr) :
    (s.step a).2.loans = s.lend ptr size align (s.step a).1.block? := by
  rcases Action.eq_of_asks ha with rfl | ⟨layout, zeroed, rfl, rfl, rfl⟩
  · simp only [step] at hp ⊢
    split at hp
    · simp [Answer.ptr?, Answer.block?] at hp
    · obtain rfl := Option.some.inj hp
      rfl
  · simp only [step] at hp ⊢
    split at hp
    · simp [Answer.ptr?, Answer.block?] at hp
    · obtain rfl := Option.some.inj hp
      rfl

end World

/-- A request above all classes leaves the regions alone. -/
theorem Ideal.bases_step {π : Type} [Platform π] (g : Ideal) (p : Provider π) {a : Action}
    {size align : ℕ} (ha : a.asks? = some (size, align))
    (hc : Regime.ofSize (Chunk.headerSize + size + align) = .oversized) :
    (g.step a p).2.1.bases = g.bases ∧ (g.step a p).2.1.regionSize = g.regionSize := by
  have halloc : (g.alloc size align p).2.1.bases = g.bases ∧
      (g.alloc size align p).2.1.regionSize = g.regionSize := by
    unfold alloc take takeOversized
    simp only [hc]
    split_ifs
    · exact ⟨rfl, rfl⟩
    · exact ⟨rfl, rfl⟩
    · exact ⟨rfl, rfl⟩
    · rcases p.reserve (Chunk.headerSize + size + align + Chunk.oversizedPrefix) with ⟨_ | b, q⟩
      · exact ⟨rfl, rfl⟩
      · exact ⟨rfl, rfl⟩
  rcases Action.eq_of_asks ha with rfl | ⟨layout, zeroed, rfl, rfl, rfl⟩
  · exact halloc
  · exact halloc

namespace World

variable {π : Type} [Platform π] {s s' : World π} {g g' : Ideal}

/-- A chunk that `s` took for `total` bytes belongs to bucket `i` of a class, and
`s'` puts it in front of that bucket. -/
structure PooledIn (s s' : World π) (total ptr chunk : ℕ) (c : SizeClass)
    (i : Fin bucketCount) : Prop where
  regime : Regime.ofSize total = .pooled c
  size : IsLeast {n | c.unit ∣ n ∧ total ≤ n} (Chunk.size s'.machine.memory chunk)
  waste : c ≠ .small → 8 * (Chunk.size s'.machine.memory chunk - total) < total
  taken : (s.heap.tables c).fit total = .ok (Chunk.size s'.machine.memory chunk, i)
  given : (s'.heap.tables c).bucket (Chunk.size s'.machine.memory chunk) = .ok i
  free : s'.heap.free ptr s'.machine = (.ok (), s'.heap.withTable c { s'.heap.tables c with
    heads := (s'.heap.tables c).heads.set i.val (some chunk) i.isLt
    count := (s'.heap.tables c).count + 1 },
    { s'.machine with
      memory := Chunk.setNext s'.machine.memory chunk ((s'.heap.tables c).heads.get i) })

/-- A chunk that `s` took for `total` bytes fills a reservation made for it, and
`s'` releases just that. -/
structure ReservedAt (s : World π) (a : Action) (s' : World π) (total ptr chunk base : ℕ) :
    Prop where
  place : chunk = base + Chunk.oversizedPrefix
  size : Chunk.size s'.machine.memory chunk = Chunk.oversizedMarker
  taken : (s.step a).2.machine.held.Perm
    (⟨base, total + Chunk.oversizedPrefix⟩ :: s.machine.held)
  free : s'.heap.free ptr s'.machine = (.ok (),
    { s'.heap with oversized := s'.heap.oversized - 1 },
    (s'.machine.report (.releasingOversized base (total + Chunk.oversizedPrefix))).release base
      (total + Chunk.oversizedPrefix))

/-- What `s'` knows of a chunk that `s` took for an action. -/
structure Recovers (s : World π) (a : Action) (s' : World π) (total ptr chunk : ℕ) : Prop where
  recovered : Chunk.ofData s'.machine.memory ptr = chunk
  regime : Regime.ofSize (Chunk.size s'.machine.memory chunk) = Regime.ofSize total
  block : ∀ b ∈ (s.step a).1.block?, b.regime = Regime.ofSize total ∧
    s'.heap.deallocate b s'.machine = s'.heap.free ptr s'.machine
  pooled : total ≤ 2 ^ 20 → ∃ c i, PooledIn s s' total ptr chunk c i
  reserved : 2 ^ 20 < total → ∃ base, ReservedAt s a s' total ptr chunk base

theorem Mirrors.pooledIn (hs : s.Mirrors g) (hs' : s'.Mirrors g') {l : Loan}
    (hl : l ∈ s'.loans) {c : SizeClass} (hc : Regime.ofSize l.total = .pooled c) :
    ∃ i, PooledIn s s' l.total l.ptr l.chunk c i := by
  have hpos := l.total_pos
  obtain ⟨i, hi⟩ := Regime.exists_bucket hpos hc
  have hp : l.place = .pooled c l.chunk (c.bucketSize i) := by
    rw [Loan.place, Place.of, hc]
    simp only [hi]
  have hregime : Regime.ofSize (c.bucketSize i) = .pooled c := hi ▸ Regime.ofSize_ceil hpos hc
  have hshows := (hs'.shows hl).headed.word
  rw [hp] at hshows
  have hsize : Chunk.size s'.machine.memory l.chunk = c.bucketSize i := hshows
  use i
  refine ⟨hc, ?_, ?_, ?_, ?_, hs'.free_pooled hl hregime hp⟩
  · rw [hsize, ← hi]
    exact Word.isLeast_ceil _ c.unit_pos
  · intro hne
    rw [hsize, ← hi]
    exact Regime.padding_lt hpos hc hne
  · rw [hsize]
    exact BucketTable.fit_pooled (hs.kept.represents.units c) hc hpos hi
  · rw [hsize]
    exact BucketTable.bucket_bucketSize (hs'.kept.represents.units c) i

theorem Mirrors.reservedAt (hs : s.Mirrors g) (hs' : s'.Mirrors g') {a : Action} (hr : s.Ready a)
    (hh : (s.step a).2.machine.Honoured) {l : Loan} (ha : a.asks? = some (l.size, l.align))
    (hstep : (s.step a).2.loans = l :: s.loans) (hl : l ∈ s'.loans)
    (hc : Regime.ofSize l.total = .oversized) :
    ∃ base, ReservedAt s a s' l.total l.ptr l.chunk base := by
  have hchunk := (hs'.loans l hl).chunk
  have hp : l.place = .reserved (l.chunk - Chunk.oversizedPrefix)
      (l.total + Chunk.oversizedPrefix) := by
    rw [Loan.place, Place.of, hc]
  have hafter := (hs.step_follows hr hh).mirrors
  obtain ⟨hbases, hsize⟩ := g.bases_step s.machine.provider ha hc
  have hheld := hafter.owns.regions
  rw [hstep, hbases, hsize, List.map_cons, hp] at hheld
  have hbefore := hs.owns.regions
  have hword := (hs'.shows hl).headed.word
  rw [Loan.place, Place.chunk_of _ hchunk, ← Loan.place, hp] at hword
  have htaken : (s.step a).2.machine.held.Perm (⟨l.chunk - Chunk.oversizedPrefix,
      l.total + Chunk.oversizedPrefix⟩ :: s.machine.held) :=
    hheld.trans (List.perm_middle.trans (hbefore.symm.cons _))
  exact ⟨l.chunk - Chunk.oversizedPrefix, (Nat.sub_add_cancel hchunk).symm, hword, htaken,
    hs'.free_reserved hl hp⟩

theorem Mirrors.recovers (hs : s.Mirrors g) (hs' : s'.Mirrors g') {a : Action} (hr : s.Ready a)
    (hh : (s.step a).2.machine.Honoured) {l : Loan} (ha : a.asks? = some (l.size, l.align))
    (hstep : (s.step a).2.loans = l :: s.loans) (hb : l.block = (s.step a).1.block?)
    (hl : l ∈ s'.loans) : Recovers s a s' l.total l.ptr l.chunk := by
  have hsound := hs'.loans l hl
  have hshows := hs'.shows hl
  have hchunk : l.place.chunk = l.chunk := Place.chunk_of _ hsound.chunk
  have hpos := l.total_pos
  have hpooled : l.total ≤ 2 ^ 20 → ∃ c i, PooledIn s s' l.total l.ptr l.chunk c i := by
    intro hle
    cases hc : Regime.ofSize l.total with
    | pooled c => exact ⟨c, hs.pooledIn hs' hl hc⟩
    | oversized => exact absurd (Regime.ofSize_eq_oversized.mp hc) (Nat.not_lt.mpr hle)
  have hreserved : 2 ^ 20 < l.total → ∃ base, ReservedAt s a s' l.total l.ptr l.chunk base :=
    fun hlt => hs.reservedAt hs' hr hh ha hstep hl (Regime.ofSize_eq_oversized.mpr hlt)
  refine ⟨hchunk ▸ hshows.chunk, ?_, ?_, hpooled, hreserved⟩
  · have hword : Chunk.size s'.machine.memory l.chunk = l.place.word :=
      hchunk ▸ hshows.headed.word
    rw [hword]
    exact Place.ofSize_word _ hpos
  · intro b hmem
    rw [← hb] at hmem
    constructor
    · rw [hsound.block b hmem]
    · exact hs'.deallocate_eq hl hmem

theorem headers_recover_chunks {h : Heap} (hf : h.Fresh) (w : Machine π)
    {acts more : List Action} {a : Action} {size align ptr : ℕ}
    (ha : a.asks? = some (size, align))
    (hp : ((after acts (start h w)).step a).1.ptr? = some ptr)
    (hkeep : ∀ b ∈ more, b.returns? ≠ some ptr)
    (hv : Valid (acts ++ a :: more) (start h w))
    (hh : (after (acts ++ a :: more) (start h w)).machine.Honoured) :
    Recovers (after acts (start h w)) a (after (acts ++ a :: more) (start h w))
      (Chunk.headerSize + size + align) ptr ((after acts (start h w)).chunkFor size align) := by
  obtain ⟨hv₁, hr, hv₂⟩ := (valid_append _ _ _).mp hv
  have hs' := ((hf.mirrors w).after_mirrors hv hh).1
  rw [after_append] at hh hs' ⊢
  have hs := ((hf.mirrors w).after_mirrors hv₁ ((grew_after _ _).honoured hh)).1
  generalize after acts (start h w) = s at *
  have hstep := loans_step ha hp
  have hl : ⟨ptr, size, align, s.chunkFor size align, (s.step a).1.block?⟩ ∈
      (s.step a).2.loans := by
    rw [hstep]
    exact List.mem_cons_self
  have hlater : ⟨ptr, size, align, s.chunkFor size align, (s.step a).1.block?⟩ ∈
      (after more (s.step a).2).loans := mem_loans_after hl hkeep
  exact hs.recovers hs' hr (honoured_step hh) ha hstep rfl hlater

theorem headers_recover_chunks_errands :
    ((after (errands.take 2) onArena).step (.alloc 20 4)).1.ptr? = some 0x100000000028 ∧
    Valid (errands.take 2 ++ .alloc 20 4 :: errands.drop 3) onArena ∧
    Recovers (after (errands.take 2) onArena) (.alloc 20 4)
      (after (errands.take 2 ++ .alloc 20 4 :: errands.drop 3) onArena)
      (Chunk.headerSize + 20 + 4) 0x100000000028
      ((after (errands.take 2) onArena).chunkFor 20 4) := by
  have hp : ((after (errands.take 2) onArena).step (.alloc 20 4)).1.ptr? =
      some 0x100000000028 := by decide +kernel
  have hkeep : ∀ b ∈ errands.drop 3, b.returns? ≠ some 0x100000000028 := by decide
  have hv : Valid (errands.take 2 ++ .alloc 20 4 :: errands.drop 3) onArena := by decide +kernel
  have hh : (after (errands.take 2 ++ .alloc 20 4 :: errands.drop 3) onArena).machine.Honoured := by
    decide +kernel
  exact ⟨hp, hv, headers_recover_chunks (.plain 7) _ rfl hp hkeep hv hh⟩

end World

end ChunkHeap
