import Mathlib
import ChunkHeap.Proofs.Ownership

/-!
# How an ideal heap lies in memory

The stacks of the ideal heap are the chains that start in the bucket tables,
and the header words of every live pointer tell its place. A write inside one
place changes nothing of what the others and the free chunks show.
-/

set_option autoImplicit false

namespace ChunkHeap

structure Represents (h : Heap) (m : Memory) (g : Ideal) : Prop where
  id : h.id = g.id
  units : ∀ c, (h.tables c).unit = c.unit
  chains : ∀ c i, Chunk.Chain m ((h.tables c).heads.get i) (g.stack c (c.bucketSize i))
  counts : ∀ c, (h.tables c).count = g.freeCount c
  regions : h.regions = ⟨g.regionSize, g.bases, g.cursor⟩
  oversized : h.oversized = g.oversized
  live : ∀ q ∈ g.live, q.2.Shows m q.1

theorem heads_get_set (heads : Vector (Option ℕ) bucketCount) (i j : Fin bucketCount)
    (head : Option ℕ) :
    (heads.set i.val head i.isLt).get j = if j = i then head else heads.get j := by
  rw [Vector.get_eq_getElem, Vector.get_eq_getElem, Vector.getElem_set]
  by_cases h : j = i
  · simp [h]
  · rw [if_neg h, if_neg fun hij => h (Fin.ext hij.symm)]

@[simp] theorem Heap.withTable_same (h : Heap) (c : SizeClass) (t : BucketTable) :
    (h.withTable c t).tables c = t :=
  if_pos rfl

theorem Heap.withTable_other (h : Heap) {c c' : SizeClass} (t : BucketTable) (hc : c' ≠ c) :
    (h.withTable c t).tables c' = h.tables c' :=
  if_neg hc

theorem Heap.withTable_self (h : Heap) (c : SizeClass) : h.withTable c (h.tables c) = h := by
  have ht : (fun c' => if c' = c then h.tables c else h.tables c') = h.tables := by
    funext c'
    by_cases hc : c' = c
    · rw [if_pos hc, hc]
    · rw [if_neg hc]
  exact congrArg (fun tables => { h with tables := tables }) ht

namespace Represents

variable {h : Heap} {m m' : Memory} {g : Ideal} {held cuts : List Span}

theorem congr (hr : Represents h m g) (hfree : ∀ s ∈ g.freeSpans, m.AgreesOn m' s)
    (hlive : ∀ q ∈ g.live, m.AgreesOn m' ⟨q.2.extent.start, q.1 - q.2.extent.start⟩) :
    Represents h m' g where
  id := hr.id
  units := hr.units
  chains := by
    intro c i
    apply (hr.chains c i).congr
    intro x hx
    have hs := hfree ⟨x, c.bucketSize i⟩ (g.mem_freeSpans.mpr ⟨c, i, x, hx, rfl⟩)
    exact hs.mono ⟨Nat.le_refl x, Nat.add_le_add_left (c.eight_le_bucketSize i) x⟩
  counts := hr.counts
  regions := hr.regions
  oversized := hr.oversized
  live := fun q hq => (hr.live q hq).congr (hlive q hq)

theorem congr_extents (hr : Represents h m g)
    (hm : ∀ e ∈ (g.live.map Prod.snd).map Place.extent ++ g.freeSpans, m.AgreesOn m' e) :
    Represents h m' g := by
  apply hr.congr
  · intro s hs
    exact hm s (List.mem_append_right _ hs)
  · intro q hq
    have hmem : q.2.extent ∈ (g.live.map Prod.snd).map Place.extent := by
      rw [List.map_map]
      exact List.mem_map_of_mem hq
    have hc := (hr.live q hq).covers
    apply (hm q.2.extent (List.mem_append_left _ hmem)).mono
    simp only [Span.Covers, Span.Within, Span.stop] at hc ⊢
    omega

variable {c : SizeClass} {i : Fin bucketCount} {chunk : ℕ} {rest : List ℕ}

theorem head_eq (hr : Represents h m g) (hs : g.stack c (c.bucketSize i) = chunk :: rest) :
    (h.tables c).heads.get i = some chunk ∧ Chunk.Chain m (Chunk.next? m chunk) rest := by
  have hc := hr.chains c i
  rw [hs] at hc
  exact Chunk.Chain.cons_iff.mp hc

theorem head_none (hr : Represents h m g) (hs : g.stack c (c.bucketSize i) = []) :
    (h.tables c).heads.get i = none := by
  have hc := hr.chains c i
  rw [hs] at hc
  exact Chunk.Chain.nil_iff.mp hc

theorem count_pos (hr : Represents h m g) (hs : g.stack c (c.bucketSize i) = chunk :: rest) :
    1 ≤ (h.tables c).count := by
  rw [hr.counts c, g.freeCount_withStack c i rest hs]
  exact Nat.le_add_left 1 _

theorem withTable {head : Option ℕ} {count : ℕ} {chunks : List ℕ} (hr : Represents h m g)
    (hc : Chunk.Chain m head chunks)
    (hn : count = (g.withStack c (c.bucketSize i) chunks).freeCount c) :
    Represents (h.withTable c { h.tables c with
      heads := (h.tables c).heads.set i.val head i.isLt
      count := count }) m (g.withStack c (c.bucketSize i) chunks) where
  id := hr.id
  units := by
    intro c'
    by_cases hcc : c' = c
    · rw [hcc, Heap.withTable_same]
      exact hr.units c
    · rw [Heap.withTable_other h _ hcc]
      exact hr.units c'
  chains := by
    intro c' j
    by_cases hcc : c' = c
    · subst hcc
      rw [Heap.withTable_same]
      simp only
      rw [heads_get_set]
      by_cases hj : j = i
      · rw [if_pos hj, hj, g.withStack_stack]
        exact hc
      · rw [if_neg hj, g.withStack_other c' i chunks (by simpa using hj)]
        exact hr.chains c' j
    · rw [Heap.withTable_other h _ hcc, g.withStack_other c i chunks (by simp [hcc])]
      exact hr.chains c' j
  counts := by
    intro c'
    by_cases hcc : c' = c
    · rw [hcc, Heap.withTable_same]
      exact hn
    · rw [Heap.withTable_other h _ hcc, g.freeCount_withStack_other c chunks hcc]
      exact hr.counts c'
  regions := hr.regions
  oversized := hr.oversized
  live := hr.live

end Represents

/-- The heap is laid out as the ideal heap says, and all is accounted for if
some places are in hand that belong to no pointer. -/
structure Kept (hand : List Place) (h : Heap) (m : Memory) (g : Ideal)
    (held cuts : List Span) : Prop where
  represents : Represents h m g
  owns : Owns g (hand ++ g.live.map Prod.snd) held cuts

namespace Kept

variable {h : Heap} {m m' : Memory} {g : Ideal} {held cuts : List Span} {p : Place}
  {c : SizeClass} {i : Fin bucketCount}

/-- Writes inside a place in hand are not seen. -/
theorem write (hk : Kept [p] h m g held cuts)
    (hm : ∀ s : Span, s.Disjoint p.extent → m.AgreesOn m' s) : Kept [p] h m' g held cuts where
  represents := by
    have hp := hk.owns.extents_apart
    rw [List.map_append, List.append_assoc, List.map_singleton, List.singleton_append] at hp
    exact hk.represents.congr_extents fun e he => hm e ((List.pairwise_cons.mp hp).1 e he).symm
  owns := hk.owns

theorem granted {base len : ℕ} (hk : Kept [] h m g held cuts) (hg : Grantable ⟨base, len⟩ held)
    (contents : ℕ → UInt8) : Represents h (m.overlay base len contents) g := by
  apply hk.represents.congr_extents
  intro e he
  obtain ⟨r, hrh, hw⟩ := hk.owns.within_held he
  exact Memory.agreesOn_overlay m contents (Span.Within.refl _)
    ((hg.apart r hrh).symm.mono hw (Span.Within.refl _))

theorem pop {chunk : ℕ} {rest : List ℕ} (hk : Kept [] h m g held cuts)
    (hs : g.stack c (c.bucketSize i) = chunk :: rest) :
    Kept [.pooled c chunk (c.bucketSize i)]
      (h.withTable c { h.tables c with
        heads := (h.tables c).heads.set i.val (Chunk.next? m chunk) i.isLt
        count := (h.tables c).count - 1 }) m
      (g.withStack c (c.bucketSize i) rest) held cuts where
  represents := by
    apply hk.represents.withTable (hk.represents.head_eq hs).2
    rw [hk.represents.counts c, g.freeCount_withStack c i rest hs]
    exact Nat.add_sub_cancel _ _
  owns := hk.owns.pop hs

theorem push {chunk : ℕ} (hk : Kept [.pooled c chunk (c.bucketSize i)] h m g held cuts)
    (hn : Chunk.next? m chunk = (h.tables c).heads.get i) :
    Kept []
      (h.withTable c { h.tables c with
        heads := (h.tables c).heads.set i.val (some chunk) i.isLt
        count := (h.tables c).count + 1 }) m
      (g.withStack c (c.bucketSize i) (chunk :: g.stack c (c.bucketSize i))) held cuts where
  represents := by
    apply hk.represents.withTable (Chunk.Chain.cons (hn ▸ hk.represents.chains c i))
    rw [hk.represents.counts c, g.freeCount_push c i chunk]
  owns := hk.owns.push

theorem cut {base : ℕ} {bases : List ℕ} (hk : Kept [] h m g held cuts)
    (hb : g.bases = base :: bases) (hf : g.cursor + c.bucketSize i ≤ g.regionSize) :
    Kept [.pooled c (base + g.cursor) (c.bucketSize i)]
      { h with regions := { h.regions with cursor := h.regions.cursor + c.bucketSize i } } m
      { g with cursor := g.cursor + c.bucketSize i } held
      (⟨base + g.cursor, c.bucketSize i⟩ :: cuts) where
  represents := { hk.represents with regions := by rw [hk.represents.regions] }
  owns := hk.owns.cut hb (c.bucketSize_pos i) (c.eight_dvd_bucketSize i) hf

theorem enter {base : ℕ} (hk : Kept [] h m g held cuts)
    (hg : Grantable ⟨base, g.regionSize⟩ held) (contents : ℕ → UInt8) :
    Kept [] { h with regions := { h.regions with bases := base :: h.regions.bases, cursor := 0 } }
      (m.overlay base g.regionSize contents)
      { g with bases := base :: g.bases, cursor := 0 }
      (⟨base, g.regionSize⟩ :: held) cuts where
  represents := { hk.granted hg contents with regions := by rw [hk.represents.regions] }
  owns := hk.owns.enter hg

theorem reserve {base len : ℕ} (hk : Kept [] h m g held cuts)
    (hg : Grantable ⟨base, len⟩ held) (contents : ℕ → UInt8) :
    Kept [.reserved base len] { h with oversized := h.oversized + 1 }
      (m.overlay base len contents) { g with oversized := g.oversized + 1 }
      (⟨base, len⟩ :: held) cuts where
  represents := { hk.granted hg contents with
    oversized := congrArg (· + 1) hk.represents.oversized }
  owns := hk.owns.reserve hg

theorem release {base len : ℕ} (hk : Kept [.reserved base len] h m g held cuts) :
    Kept [] { h with oversized := h.oversized - 1 } m { g with oversized := g.oversized - 1 }
      (held.erase ⟨base, len⟩) cuts where
  represents := { hk.represents with
    oversized := congrArg (· - 1) hk.represents.oversized }
  owns := hk.owns.release

theorem hand_within (hk : Kept [p] h m g held cuts) :
    8 ≤ p.extent.start ∧ p.extent.stop ≤ layoutLimit := by
  have hp : p.extent ∈ ([p] ++ g.live.map Prod.snd).map Place.extent ++ g.freeSpans := by simp
  obtain ⟨r, hr, hw⟩ := hk.owns.within_held hp
  -- the first multiple of eight after zero is where a range can start
  have hpos := hk.owns.pos r hr
  obtain ⟨k, hk8⟩ := hk.owns.aligned r hr
  have hlow := hw.1
  exact ⟨by omega, hw.2.trans (hk.owns.below r hr)⟩

/-- A free chunk has an address that is not zero and fits into a link. -/
theorem head_bounds {hand : List Place} (hk : Kept hand h m g held cuts) (c : SizeClass)
    (i : Fin bucketCount) : ∀ x ∈ (h.tables c).heads.get i, 0 < x ∧ x < 256 ^ 8 := by
  intro x hx
  have hc := hk.represents.chains c i
  rw [Option.mem_def.mp hx] at hc
  cases hs : g.stack c (c.bucketSize i) with
  | nil => 
    rw [hs] at hc
    cases hc
  | cons y rest =>
    rw [hs, Chunk.Chain.cons_iff] at hc
    obtain rfl : x = y := by simpa using hc.1
    have hm : ⟨x, c.bucketSize i⟩ ∈ g.freeSpans :=
      g.mem_freeSpans.mpr ⟨c, i, x, by simp [hs], rfl⟩
    obtain ⟨r, hr, hw⟩ := hk.owns.within_held (List.mem_append_right _ hm)
    have hpos := hk.owns.pos r hr
    have hbelow := hk.owns.below r hr
    have hlow := hw.1
    have hhigh := hw.2
    have hlimit : layoutLimit < 256 ^ 8 := by decide
    simp only [Span.stop] at hlow hhigh hbelow
    omega

/-- A pointer to a place in hand gets its hop recorded and is live. -/
theorem lend {data : ℕ} (hk : Kept [p] h m g held cuts) (hh : p.Headed m)
    (after : p.chunk + Chunk.headerSize ≤ data) (before : data < p.extent.stop)
    (hop : data - (p.chunk + Chunk.headerSize) < 256 ^ 4) :
    Kept [] h (m.store (data - 4) 4 (data - (p.chunk + Chunk.headerSize)))
      { g with live := (data, p) :: g.live } held cuts := by
  have hs := p.start_le_chunk
  have hword : Span.Within ⟨data - 4, 4⟩ p.extent := by
    simp only [Chunk.headerSize, Span.Within, Span.stop] at *
    omega
  have hwrite : Represents h (m.store (data - 4) 4 (data - (p.chunk + Chunk.headerSize))) g :=
    (hk.write fun s hs => Memory.agreesOn_store m hword hs).represents
  have hshows := Place.Shows.of_store hh after before hop
  exact ⟨{ hwrite with live := List.forall_mem_cons.mpr ⟨hshows, hwrite.live⟩ },
    hk.owns.withLive _⟩

end Kept

end ChunkHeap
