import Mathlib
import ChunkHeap.Proofs.Journal
import ChunkHeap.Proofs.Lending
import ChunkHeap.Proofs.Returning

/-!
# Heaps follow the ideal heap

Each step of a world is answered as the ideal heap answers it and leaves a world
that mirrors the ideal heap again, and so does each run. The heap reads from
memory what the ideal heap remembers.
-/

set_option autoImplicit false

namespace ChunkHeap

variable {π : Type} {s : World π} {g : Ideal}

/-- A step of a world and one of the ideal heap have the same outcome. -/
structure Follows (x : Answer × World π) (y : Answer × Ideal × Provider π) : Prop where
  answer : x.1 = y.1
  mirrors : x.2.Mirrors y.2.1
  provider : x.2.machine.provider = y.2.2

namespace World.Mirrors

theorem refused (hs : s.Mirrors g) {w : Machine π} (hm : w.memory = s.machine.memory)
    (hh : w.held = s.machine.held) : (s.settle s.heap w s.loans).Mirrors g where
  kept := by
    have hk := hs.kept
    rw [← hm, ← hh] at hk
    rw [World.settle, RegionSource.grown_self]
    exact hk
  live := hs.live
  loans := hs.loans

theorem block_eq (hs : s.Mirrors g) {l : Loan} (hl : l ∈ s.loans) {block : Block}
    (hb : l.block = some block) : block.ptr = l.ptr ∧ block.owner = s.heap.id := by
  rw [(hs.loans l hl).block block hb]
  exact ⟨rfl, rfl⟩

variable [Platform π]

theorem deallocate_eq (hs : s.Mirrors g) {l : Loan} (hl : l ∈ s.loans) {block : Block}
    (hb : l.block = some block) :
    s.heap.deallocate block s.machine = s.heap.free l.ptr s.machine := by
  obtain ⟨hptr, howner⟩ := hs.block_eq hl hb
  rw [Heap.deallocate, Heap.checkOwner, if_pos howner, hptr]

theorem alloc_follows (hs : s.Mirrors g) {size align : ℕ}
    (hh : (s.step (.alloc size align)).2.machine.Honoured) :
    Follows (s.step (.alloc size align)) (g.step (.alloc size align) s.machine.provider) := by
  have hl := alloc_lent hs (s.machine_alloc size align ▸ hh)
  simp only [World.step, Ideal.step]
  generalize s.heap.alloc size align s.machine = x at hl ⊢
  generalize g.alloc size align s.machine.provider = y at hl ⊢
  cases hl with
  | refused memory held => exact ⟨rfl, hs.refused memory held, rfl⟩
  | lent same mirrors => exact ⟨rfl, mirrors none (by simp), rfl⟩

theorem allocate_follows (hs : s.Mirrors g) {layout : Layout} {zeroed : Bool}
    (hh : (s.step (.allocate layout zeroed)).2.machine.Honoured) :
    Follows (s.step (.allocate layout zeroed))
      (g.step (.allocate layout zeroed) s.machine.provider) := by
  have halloc := (s.calm_allocate layout zeroed).honoured_iff.mp hh
  rcases hs.allocate_lent halloc with ⟨why, w', hx, hy, hm, hheld⟩ |
    ⟨ptr, h', w', g', hx, hy, hmirrors⟩
  · have hstep : s.step (.allocate layout zeroed) =
        (.block (.error (.refused why)), s.settle s.heap w' s.loans) := by
      cases zeroed <;> simp [World.step, Heap.allocateZeroed, hx]
    simp only [hstep, Ideal.step, hy]
    exact ⟨rfl, hs.refused hm hheld, rfl⟩
  · simp only [World.step, Ideal.step, hy]
    cases zeroed with
    | false =>
      simp only [Bool.false_eq_true, if_false, hx]
      exact ⟨rfl, hmirrors, rfl⟩
    | true =>
      simp only [if_true, Heap.allocateZeroed, hx]
      exact ⟨rfl, hmirrors.write List.mem_cons_self _ (Span.Within.refl _), rfl⟩

theorem free_step_follows (hs : s.Mirrors g) {ptr : ℕ} (ha : s.Ready (.free ptr)) :
    Follows (s.step (.free ptr)) (g.step (.free ptr) s.machine.provider) := by
  obtain ⟨l, hl, rfl⟩ := ha
  obtain ⟨h', w', hfree, hmirrors, hprovider⟩ := hs.free_follows hl
  simp only [World.step, Ideal.step, hfree]
  exact ⟨rfl, hmirrors, hprovider⟩

theorem deallocate_follows (hs : s.Mirrors g) {block : Block} (ha : s.Ready (.deallocate block)) :
    Follows (s.step (.deallocate block)) (g.step (.deallocate block) s.machine.provider) := by
  obtain ⟨l, hl, hb⟩ := ha
  obtain ⟨h', w', hfree, hmirrors, hprovider⟩ := hs.free_follows hl
  have hdealloc : s.heap.deallocate block s.machine = (.ok (), h', w') :=
    (hs.deallocate_eq hl hb).trans hfree
  simp only [World.step, Ideal.step, hdealloc, (hs.block_eq hl hb).1]
  exact ⟨rfl, hmirrors, hprovider⟩

theorem paddedSize_follows (hs : s.Mirrors g) {block : Block} (ha : s.Ready (.paddedSize block)) :
    Follows (s.step (.paddedSize block)) (g.step (.paddedSize block) s.machine.provider) := by
  obtain ⟨l, hl, hb⟩ := ha
  obtain ⟨hptr, howner⟩ := hs.block_eq hl hb
  have hpadded : s.heap.paddedSize block s.machine.memory = .ok l.place.word := by
    rw [Heap.paddedSize, Heap.checkOwner, if_pos howner, hptr]
    change Except.ok (Chunk.size s.machine.memory (Chunk.ofData s.machine.memory l.ptr)) = _
    rw [(hs.shows hl).chunk, (hs.shows hl).headed.word]
  simp only [World.step, Ideal.step, hpadded, hptr, hs.lookup_eq hl]
  exact ⟨rfl, hs, rfl⟩

theorem write_follows (hs : s.Mirrors g) {addr : ℕ} {bytes : List UInt8}
    (ha : s.Ready (.write addr bytes)) :
    Follows (s.step (.write addr bytes)) (g.step (.write addr bytes) s.machine.provider) := by
  obtain ⟨l, hl, hw⟩ := ha
  exact ⟨rfl, hs.write hl _ hw, rfl⟩

theorem step_follows (hs : s.Mirrors g) {a : Action} (ha : s.Ready a)
    (hh : (s.step a).2.machine.Honoured) :
    Follows (s.step a) (g.step a s.machine.provider) := by
  cases a with
  | alloc size align => exact hs.alloc_follows hh
  | allocate layout zeroed => exact hs.allocate_follows hh
  | free ptr => exact hs.free_step_follows ha
  | deallocate block => exact hs.deallocate_follows ha
  | paddedSize block => exact hs.paddedSize_follows ha
  | write addr bytes => exact hs.write_follows ha

omit [Platform π] in
theorem stats_eq (hs : s.Mirrors g) : s.heap.stats = g.stats := by
  have hr := hs.kept.represents
  simp only [Heap.stats, Ideal.stats, hr.regions, hr.counts, hr.oversized]

/-- A run that mirrors the ideal heap at first does so at last. -/
theorem after_mirrors {acts : List Action} (hs : s.Mirrors g) (hv : World.Valid acts s)
    (hh : (World.after acts s).machine.Honoured) :
    (World.after acts s).Mirrors (Ideal.after acts g s.machine.provider).1 ∧
      (World.after acts s).machine.provider = (Ideal.after acts g s.machine.provider).2 := by
  -- both heaps move on, so the induction is for all that mirror each other
  induction acts generalizing s g with
  | nil => exact ⟨hs, rfl⟩
  | cons a acts ih =>
    have hstep := hs.step_follows hv.1 (World.honoured_step hh)
    have hrest := ih hstep.mirrors hv.2 hh
    rwa [hstep.provider] at hrest

/-- All answers of a run and all figures on the way are those of the ideal heap. -/
theorem trace_eq {acts : List Action} (hs : s.Mirrors g) (hv : World.Valid acts s)
    (hh : (World.after acts s).machine.Honoured) :
    World.trace acts s = Ideal.trace acts g s.machine.provider := by
  induction acts generalizing s g with
  | nil => rfl
  | cons a acts ih =>
    have hstep := hs.step_follows hv.1 (World.honoured_step hh)
    have hrest := ih hstep.mirrors hv.2 hh
    rw [World.trace, Ideal.trace, hrest, hstep.answer, hstep.mirrors.stats_eq, hstep.provider]

end World.Mirrors

theorem Heap.eq_of_ofConfig {id : ℕ} {config : Config} {h : Heap}
    (accepted : Heap.ofConfig id config = .ok h) :
    h = Heap.empty id config.regionSize ∧ SizeClass.big.maxSize ≤ config.regionSize := by
  unfold Heap.ofConfig Config.validate at accepted
  split_ifs at accepted with hbad
  · simp [bind, Except.bind] at accepted
  · obtain rfl := Except.ok.inj accepted
    exact ⟨rfl, by omega⟩

theorem Heap.Fresh.exists_eq {h : Heap} (hf : h.Fresh) :
    ∃ id size, h = Heap.empty id size ∧ SizeClass.big.maxSize ≤ size := by
  cases hf with
  | plain id => exact ⟨id, defaultRegionSize, rfl, by decide⟩
  | configured accepted =>
    obtain ⟨rfl, hsize⟩ := Heap.eq_of_ofConfig accepted
    exact ⟨_, _, rfl, hsize⟩

theorem represents_empty (id size : ℕ) (m : Memory) :
    Represents (Heap.empty id size) m (Ideal.empty id size) where
  id := rfl
  units := fun c => rfl
  chains := by
    intro c i
    have hnone : ((Heap.empty id size).tables c).heads.get i = none := by
      simp [Heap.empty, Vector.get_eq_getElem]
    rw [hnone]
    exact .nil
  counts := by
    intro c
    simp [Heap.empty, Ideal.empty, Ideal.freeCount]
  regions := rfl
  oversized := rfl
  live := by simp [Ideal.empty]

theorem owns_empty (id : ℕ) {size : ℕ} (hs : SizeClass.big.maxSize ≤ size) :
    Owns (Ideal.empty id size) [] [] [] where
  pos := by simp
  aligned := by simp
  below := by simp
  apart := List.Pairwise.nil
  regions := List.Perm.refl _
  tiled := .none
  pieces := by
    have hfree : (Ideal.empty id size).freeSpans = [] := by
      simp [Ideal.freeSpans, Ideal.shelf, Ideal.empty]
    rw [hfree]
    exact List.Perm.refl _
  oversized := rfl
  roomy := hs

def Heap.ideal (h : Heap) : Ideal := Ideal.empty h.id h.regions.regionSize

theorem Heap.Fresh.mirrors {h : Heap} (hf : h.Fresh) (w : Machine π) :
    (World.start h w).Mirrors h.ideal := by
  obtain ⟨id, size, rfl, hs⟩ := hf.exists_eq
  exact ⟨⟨represents_empty id size w.memory, owns_empty id hs⟩, rfl, by simp [World.start]⟩

end ChunkHeap
