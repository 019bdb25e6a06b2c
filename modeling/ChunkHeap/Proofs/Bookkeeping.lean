import Mathlib
import ChunkHeap.Proofs.Calls
import ChunkHeap.Proofs.Commuting

/-!
# Bookkeeping

Two machines that differ in memory at most do the same for a heap, apart from
what it reads from links and header words. So two worlds that differ in memory
at most and mirror one ideal heap keep the same books, whatever the users of
the one and of the other have in their data.
-/

set_option autoImplicit false

namespace ChunkHeap

namespace Machine

variable {π : Type} [Platform π] {w w' : Machine π}

/-- Two outcomes that differ in memory at most. -/
structure Tallies {α σ : Type} (x y : α × σ × Machine π) : Prop where
  result : y.1 = x.1
  state : y.2.1 = x.2.1
  calm : x.2.2.Calm y.2.2

omit [Platform π] in
theorem Tallies.eq {α σ : Type} {x y : α × σ × Machine π} (h : Tallies x y) :
    ∃ result state v v', x = (result, state, v) ∧ y = (result, state, v') ∧ v.Calm v' :=
  ⟨x.1, x.2.1, x.2.2, y.2.2, rfl, Prod.ext h.result (Prod.ext h.state rfl), h.calm⟩

omit [Platform π] in
theorem Calm.write (h : w.Calm w') (m m' : Memory) :
    Calm { w with memory := m } { w' with memory := m' } :=
  ⟨h.platform, h.journal⟩

omit [Platform π] in
theorem Calm.log (h : w.Calm w') (notes : List Note) : (w.log notes).Calm (w'.log notes) :=
  ⟨h.platform, by simp only [Machine.log, h.journal]⟩

theorem Calm.reserve (h : w.Calm w') (len : ℕ) : (w'.reserve len).1 = (w.reserve len).1 ∧
    (w.reserve len).2.Calm (w'.reserve len).2 := by
  unfold Machine.reserve
  rw [h.platform]
  split
  · exact ⟨rfl, rfl, by simp only [Machine.log, h.journal]⟩
  · exact ⟨rfl, rfl, by simp only [Machine.log, h.journal]⟩

theorem Calm.release (h : w.Calm w') (base len : ℕ) :
    (w.release base len).Calm (w'.release base len) := by
  unfold Machine.release
  rw [h.platform]
  exact ⟨rfl, by simp only [Machine.log, h.journal]⟩

end Machine

open Machine

variable {π : Type} [Platform π] {w w' : Machine π}

theorem RegionSource.tallies_extend (r : RegionSource) (size : ℕ) (hw : w.Calm w') :
    Tallies (r.extend size w) (r.extend size w') := by
  obtain ⟨hbase, hcalm⟩ := hw.reserve r.regionSize
  unfold extend
  rcases hx : w.reserve r.regionSize with ⟨_ | base, v⟩
  all_goals
    rcases hy : w'.reserve r.regionSize with ⟨base', v'⟩
    rw [hx, hy] at hbase hcalm
    obtain rfl : base' = _ := hbase
  · exact ⟨rfl, rfl, hcalm⟩
  · simp only
    split
    · exact ⟨rfl, rfl, hcalm⟩
    · exact ⟨rfl, rfl, hcalm.log _⟩

theorem RegionSource.tallies_carve (r : RegionSource) (size : ℕ) (hw : w.Calm w') :
    Tallies (r.carve size w) (r.carve size w') := by
  unfold carve
  split
  · exact ⟨rfl, rfl, hw⟩
  · split
    · exact ⟨rfl, rfl, hw⟩
    · exact ⟨rfl, rfl, hw⟩
    · exact r.tallies_extend size hw

/-- The links of the first chunks are the same in both memories. -/
def BucketTable.Linked (t : BucketTable) (m m' : Memory) : Prop :=
  ∀ i chunk, t.heads.get i = some chunk → Chunk.next? m' chunk = Chunk.next? m chunk

namespace BucketTable

variable {t : BucketTable}

theorem tallies_obtain (hl : t.Linked w.memory w'.memory) (padded : ℕ) (i : Fin bucketCount)
    (r : RegionSource) (hw : w.Calm w') :
    let x := t.obtain padded i r w
    let y := t.obtain padded i r w'
    Tallies ((x.1, x.2.1), x.2.2) ((y.1, y.2.1), y.2.2) := by
  intro x y
  have hc := r.tallies_carve padded (hw.log [.event (.bucketEmpty padded t.unit)])
  cases hhead : t.heads.get i with
  | none =>
    have hx : x = ((r.carve padded (w.report (.bucketEmpty padded t.unit))).1, t,
        (r.carve padded (w.report (.bucketEmpty padded t.unit))).2) := by
      simp only [x, obtain, hhead]
    have hy : y = ((r.carve padded (w'.report (.bucketEmpty padded t.unit))).1, t,
        (r.carve padded (w'.report (.bucketEmpty padded t.unit))).2) := by
      simp only [y, obtain, hhead]
    rw [hx, hy]
    exact ⟨congrArg (·, t) hc.result, hc.state, hc.calm⟩
  | some chunk =>
    simp only [x, y, obtain, hhead, pop, hl i chunk hhead]
    exact ⟨rfl, rfl, hw⟩

theorem tallies_take (hl : t.Linked w.memory w'.memory) (size : ℕ) (r : RegionSource)
    (hw : w.Calm w') :
    let x := t.take size r w
    let y := t.take size r w'
    Tallies ((x.1, x.2.1), x.2.2) ((y.1, y.2.1), y.2.2) := by
  simp only [take]
  split
  · exact ⟨rfl, rfl, hw⟩
  · next padded i _ =>
    have ho := tallies_obtain hl padded i r hw
    rcases hx : t.obtain padded i r w with ⟨result, t', r', v⟩
    rcases hy : t.obtain padded i r w' with ⟨result', t'', r'', v'⟩
    simp only [hx, hy] at ho
    obtain ⟨hresult, rfl, hcalm⟩ := ho
    obtain ⟨rfl, rfl⟩ := Prod.mk.inj hresult
    cases result' with
    | error failure => exact ⟨rfl, rfl, hcalm⟩
    | ok chunk => exact ⟨rfl, rfl, hcalm.write _ _⟩

end BucketTable

namespace Heap

variable {h : Heap}

theorem tallies_takeOversized (h : Heap) (total : ℕ) (hw : w.Calm w') :
    Tallies (h.takeOversized total w) (h.takeOversized total w') := by
  obtain ⟨hbase, hcalm⟩ := hw.reserve (total + Chunk.oversizedPrefix)
  simp only [takeOversized]
  split_ifs
  · exact ⟨rfl, rfl, hw⟩
  · rcases hx : w.reserve (total + Chunk.oversizedPrefix) with ⟨_ | base, v⟩
    all_goals
      rcases hy : w'.reserve (total + Chunk.oversizedPrefix) with ⟨base', v'⟩
      rw [hx, hy] at hbase hcalm
      obtain rfl : base' = _ := hbase
    · exact ⟨rfl, rfl, hcalm⟩
    · exact ⟨rfl, rfl, (hcalm.log _).write _ _⟩

theorem tallies_takeChunk (hl : ∀ c, (h.tables c).Linked w.memory w'.memory) (total : ℕ)
    (hw : w.Calm w') : Tallies (h.takeChunk total w) (h.takeChunk total w') := by
  simp only [takeChunk]
  split
  · next c _ =>
    obtain ⟨hresult, hstate, hcalm⟩ := BucketTable.tallies_take (hl c) total h.regions hw
    obtain ⟨hresult, htable⟩ := Prod.mk.inj hresult
    exact ⟨hresult, by rw [htable, hstate], hcalm⟩
  · exact h.tallies_takeOversized total hw

theorem tallies_alloc (hl : ∀ c, (h.tables c).Linked w.memory w'.memory) (size align : ℕ)
    (hw : w.Calm w') : Tallies (h.alloc size align w) (h.alloc size align w') := by
  simp only [alloc]
  split_ifs
  · exact ⟨rfl, rfl, hw⟩
  · split
    · exact ⟨rfl, rfl, hw⟩
    · next total _ =>
      obtain ⟨result, h', v, v', hx, hy, hcalm⟩ := (tallies_takeChunk hl total hw).eq
      rw [hx, hy]
      cases result with
      | error failure => exact ⟨rfl, rfl, hcalm⟩
      | ok chunk =>
        -- the hop is a matter of the chunk and the alignment alone
        simp only [Chunk.placeData]
        cases Chunk.hop chunk align with
        | error fault => exact ⟨rfl, rfl, hcalm⟩
        | ok hop => exact ⟨rfl, rfl, hcalm.write _ _⟩

theorem tallies_allocate (hl : ∀ c, (h.tables c).Linked w.memory w'.memory) (layout : Layout)
    (hw : w.Calm w') : Tallies (h.allocate layout w) (h.allocate layout w') := by
  obtain ⟨result, h', v, v', hx, hy, hcalm⟩ :=
    (tallies_alloc hl layout.size layout.align hw).eq
  simp only [allocate, hx, hy]
  cases result with
  | error failure => exact ⟨rfl, rfl, hcalm⟩
  | ok ptr =>
    simp only
    split
    · exact ⟨rfl, rfl, hcalm⟩
    · exact ⟨rfl, rfl, hcalm⟩

theorem tallies_allocateZeroed (hl : ∀ c, (h.tables c).Linked w.memory w'.memory)
    (layout : Layout) (hw : w.Calm w') :
    Tallies (h.allocateZeroed layout w) (h.allocateZeroed layout w') := by
  obtain ⟨result, h', v, v', hx, hy, hcalm⟩ := (tallies_allocate hl layout hw).eq
  simp only [allocateZeroed, hx, hy]
  cases result with
  | error failure => exact ⟨rfl, rfl, hcalm⟩
  | ok block => exact ⟨rfl, rfl, hcalm.write _ _⟩

end Heap

namespace World

variable {s t : World π} {g : Ideal}

omit [Platform π] in
/-- The first links are those of the same chains. -/
theorem Mirrors.linked (hs : s.Mirrors g) (ht : t.Mirrors g) (c : SizeClass) :
    (s.heap.tables c).Linked s.machine.memory t.machine.memory := by
  intro i chunk hhead
  have hr := hs.kept.represents
  cases hstack : g.stack c (c.bucketSize i) with
  | nil =>
    rw [hr.head_none hstack] at hhead
    cases hhead
  | cons x rest =>
    obtain ⟨hx, hchain⟩ := hr.head_eq hstack
    obtain rfl : x = chunk := Option.some.inj (hx.symm.trans hhead)
    rw [hchain.head_eq, (ht.kept.represents.head_eq hstack).2.head_eq]

/-- The worlds are the same but for the bytes in memory. -/
structure SameBooks (s t : World π) : Prop where
  heap : t.heap = s.heap
  calm : s.machine.Calm t.machine
  loans : t.loans = s.loans
  cuts : t.cuts = s.cuts

namespace SameBooks

omit [Platform π] in
theorem settle (h : SameBooks s t) {heap : Heap} {v v' : Machine π} (hv : v.Calm v')
    (loans : List Loan) : SameBooks (s.settle heap v loans) (t.settle heap v' loans) where
  heap := rfl
  calm := hv
  loans := rfl
  cuts := by simp only [World.settle, h.heap, h.cuts]

omit [Platform π] in
theorem ready_iff (h : SameBooks s t) {a : Action} : t.Ready a ↔ s.Ready a := by
  cases a <;> simp only [Ready, h.loans]

variable (h : SameBooks s t) (hs : s.Mirrors g) (ht : t.Mirrors g)
include h hs ht

theorem chunkFor (size align : ℕ) : t.chunkFor size align = s.chunkFor size align := by
  simp only [World.chunkFor, h.heap]
  cases Heap.totalSize size align with
  | error fault => rfl
  | ok total =>
    simp only
    rw [(Heap.tallies_takeChunk (hs.linked ht) total h.calm).result]

theorem alloc (size align : ℕ) :
    (t.step (.alloc size align)).1 = (s.step (.alloc size align)).1 ∧
      SameBooks (s.step (.alloc size align)).2 (t.step (.alloc size align)).2 := by
  obtain ⟨result, heap, v, v', hx, hy, hcalm⟩ :=
    (Heap.tallies_alloc (hs.linked ht) size align h.calm).eq
  simp only [World.step, h.heap, hx, hy]
  cases result with
  | error failure => exact ⟨rfl, h.loans ▸ h.settle hcalm _⟩
  | ok ptr =>
    simp only [World.lend, h.loans, h.chunkFor hs ht]
    exact ⟨trivial, h.settle hcalm _⟩

theorem allocate (layout : Layout) (zeroed : Bool) :
    (t.step (.allocate layout zeroed)).1 = (s.step (.allocate layout zeroed)).1 ∧
      SameBooks (s.step (.allocate layout zeroed)).2 (t.step (.allocate layout zeroed)).2 := by
  obtain ⟨result, heap, v, v', hx, hy, hcalm⟩ : ∃ result heap v v',
      (if zeroed then s.heap.allocateZeroed layout s.machine
        else s.heap.allocate layout s.machine) = (result, heap, v) ∧
      (if zeroed then s.heap.allocateZeroed layout t.machine
        else s.heap.allocate layout t.machine) = (result, heap, v') ∧ v.Calm v' := by
    cases zeroed with
    | false => exact (Heap.tallies_allocate (hs.linked ht) layout h.calm).eq
    | true => exact (Heap.tallies_allocateZeroed (hs.linked ht) layout h.calm).eq
  simp only [World.step, h.heap, hx, hy]
  cases result with
  | error failure => exact ⟨rfl, h.loans ▸ h.settle hcalm _⟩
  | ok block =>
    simp only [World.lend, h.loans, h.chunkFor hs ht]
    exact ⟨trivial, h.settle hcalm _⟩

/-- Both find the place of the pointer in its header words. -/
theorem free_tallies {l : Loan} (hl : l ∈ s.loans) :
    Tallies (s.heap.free l.ptr s.machine) (t.heap.free l.ptr t.machine) := by
  have hl' : l ∈ t.loans := h.loans ▸ hl
  rcases l.place_cases with ⟨c, i, hc, hp⟩ | hp
  · rw [hs.free_pooled hl hc hp, ht.free_pooled hl' hc hp, h.heap]
    exact ⟨rfl, rfl, h.calm.write _ _⟩
  · rw [hs.free_reserved hl hp, ht.free_reserved hl' hp, h.heap]
    exact ⟨rfl, rfl, (h.calm.log _).release _ _⟩

theorem step {a : Action} (ha : s.Ready a) :
    (t.step a).1 = (s.step a).1 ∧ SameBooks (s.step a).2 (t.step a).2 := by
  cases a with
  | alloc size align => exact h.alloc hs ht size align
  | allocate layout zeroed => exact h.allocate hs ht layout zeroed
  | free ptr =>
    obtain ⟨l, hl, rfl⟩ := ha
    obtain ⟨result, heap, v, v', hx, hy, hcalm⟩ := (h.free_tallies hs ht hl).eq
    simp only [World.step, hx, hy, World.without, h.loans]
    exact ⟨trivial, h.settle hcalm _⟩
  | deallocate block =>
    obtain ⟨l, hl, hb⟩ := ha
    obtain ⟨result, heap, v, v', hx, hy, hcalm⟩ := (h.free_tallies hs ht hl).eq
    have hl' : l ∈ t.loans := h.loans ▸ hl
    simp only [World.step, hs.deallocate_eq hl hb, ht.deallocate_eq hl' hb, hx, hy,
      World.without, h.loans]
    exact ⟨trivial, h.settle hcalm _⟩
  | paddedSize block =>
    have hx := (hs.paddedSize_follows ha).answer
    have hy := (ht.paddedSize_follows (h.ready_iff.mpr ha)).answer
    exact ⟨hy.trans hx.symm, h⟩
  | write addr bytes => exact ⟨rfl, h.heap, h.calm.write _ _, h.loans, h.cuts⟩

/-- Worlds with the same books keep the same books through every run. -/
theorem after {acts : List Action} (hv : Valid acts s)
    (hh : (World.after acts s).machine.Honoured) :
    Valid acts t ∧ trace acts t = trace acts s ∧
      SameBooks (World.after acts s) (World.after acts t) ∧
      ∃ g', (World.after acts s).Mirrors g' ∧ (World.after acts t).Mirrors g' := by
  induction acts generalizing s t g with
  | nil => exact ⟨trivial, rfl, h, g, hs, ht⟩
  | cons a acts ih =>
    obtain ⟨ha, hv⟩ := hv
    obtain ⟨hanswer, hstep⟩ := h.step hs ht ha
    have hready := h.ready_iff.mpr ha
    have hs' := hs.step_follows ha (honoured_step hh)
    have ht' := ht.step_follows hready (hstep.calm.honoured_iff.mpr (honoured_step hh))
    rw [h.calm.provider] at ht'
    obtain ⟨hvalid, htrace, hrest⟩ := ih hstep hs'.mirrors ht'.mirrors hv hh
    refine ⟨⟨hready, hvalid⟩, ?_, hrest⟩
    rw [trace, trace, htrace, hanswer, hstep.heap]

end SameBooks

end World

end ChunkHeap
