import Mathlib
import ChunkHeap.Proofs.Footprint
import ChunkHeap.Proofs.Peak
import ChunkHeap.Proofs.Refusals

/-!
# Where the space of regions is

All bytes of the regions are in chunks that were cut, in tails that were
abandoned or behind the cursor of the current region. Whenever a region is
entered the heap reports a tail. It is what was left of the region that is
replaced, but for the first region, which replaces none, its whole size.
-/

set_option autoImplicit false

namespace ChunkHeap

/-- The tail that is reported for a new region. -/
def Note.tail? : Note → Option ℕ
  | .event (.acquiredRegion _ _ _ abandoned) => some abandoned
  | _ => none

/-- The tails that a heap reports in one operation. What follows a release comes
from the platform. -/
def reportedTails (notes : List Note) : List ℕ :=
  (notes.takeWhile fun n => n.released? = none).filterMap Note.tail?

namespace Machine

variable {π : Type} {w w' w'' : Machine π} {tails tails' : List ℕ}

/-- The second machine has reported some tails more and has released nothing. -/
def Tells (w w' : Machine π) (tails : List ℕ) : Prop :=
  ∃ notes, w'.journal = w.journal ++ notes ∧ (∀ n ∈ notes, n.released? = none) ∧
    notes.filterMap Note.tail? = tails

namespace Tells

theorem refl (w : Machine π) : w.Tells w [] := ⟨[], (List.append_nil _).symm, by simp, rfl⟩

theorem trans (h : w.Tells w' tails) (h' : w'.Tells w'' tails') :
    w.Tells w'' (tails ++ tails') := by
  obtain ⟨notes, hj, hr, rfl⟩ := h
  obtain ⟨notes', hj', hr', rfl⟩ := h'
  refine ⟨notes ++ notes', ?_, ?_, List.filterMap_append⟩
  · rw [hj', hj, List.append_assoc]
  · exact List.forall_mem_append.mpr ⟨hr, hr'⟩

theorem note (w : Machine π) {n : Note} (hn : n.released? = none) :
    w.Tells (w.log [n]) n.tail?.toList := by
  refine ⟨[n], rfl, by simpa using hn, ?_⟩
  cases h : n.tail? <;> simp [h]

theorem reported (h : w.Tells w' tails) :
    reportedTails (w'.journal.drop w.journal.length) = tails := by
  obtain ⟨notes, hj, hr, rfl⟩ := h
  have hall : notes.takeWhile (fun n => n.released? = none) = notes := by
    rw [List.takeWhile_eq_self_iff]
    simpa using hr
  rw [hj, List.drop_left, reportedTails, hall]

variable [Platform π]

theorem reserve (w : Machine π) (len : ℕ) : w.Tells (w.reserve len).2 [] := by
  unfold Machine.reserve
  split
  · exact note (n := .reserved len none) w rfl
  · exact note (n := .reserved len _) w rfl

end Tells

end Machine

open Machine

variable {π : Type} [Platform π]

/-- An operation enters no region and reports no tail, or it enters one and reports
the rest of the region size. -/
inductive RegionSource.Acquires (r : RegionSource) (w : Machine π) :
    RegionSource → Machine π → Prop
  | none {r' : RegionSource} {w' : Machine π} (same : r'.bases = r.bases) (told : w.Tells w' []) :
      Acquires r w r' w'
  | one {r' : RegionSource} {w' : Machine π} {base : ℕ} (entered : r'.bases = base :: r.bases)
      (told : w.Tells w' [r.regionSize - r.cursor]) : Acquires r w r' w'

namespace RegionSource

variable {r r' : RegionSource} {w w' : Machine π}

omit [Platform π] in
theorem Acquires.write (h : r.Acquires w r' w') (m : Memory) :
    r.Acquires w r' { w' with memory := m } := by
  cases h with
  | none same told => exact .none same told
  | one entered told => exact .one entered told

omit [Platform π] in
theorem Acquires.report {e : Event} (h : r.Acquires (w.report e) r' w')
    (he : (Note.event e).tail? = Option.none) : r.Acquires w r' w' := by
  have hw : w.Tells (w.report e) [] := by
    have hn := Tells.note (n := .event e) w rfl
    rw [he] at hn
    exact hn
  cases h with
  | none same told => exact .none same (hw.trans told)
  | one entered told => exact .one entered (hw.trans told)

theorem acquires_extend (r : RegionSource) (size : ℕ) (w : Machine π) :
    r.Acquires w (r.extend size w).2.1 (r.extend size w).2.2 := by
  have hr := Tells.reserve w r.regionSize
  unfold extend
  split
  · next h =>
    rw [h] at hr
    exact .none rfl hr
  · next base w' h =>
    rw [h] at hr
    by_cases hc : r.cursor ≤ r.regionSize
    · rw [Word.sub_eq_ok hc]
      exact .one rfl (hr.trans (Tells.note (n := .event (.acquiredRegion ..)) w' rfl))
    · rw [Word.sub, if_neg hc]
      exact .none rfl hr

theorem acquires_carve (r : RegionSource) (size : ℕ) (w : Machine π) :
    r.Acquires w (r.carve size w).2.1 (r.carve size w).2.2 := by
  unfold carve
  split
  · exact .none rfl (.refl w)
  · split
    · exact .none rfl (.refl w)
    · exact .none rfl (.refl w)
    · exact r.acquires_extend size w

end RegionSource

open RegionSource

theorem BucketTable.acquires_obtain (t : BucketTable) (padded : ℕ) (i : Fin bucketCount)
    (r : RegionSource) (w : Machine π) :
    r.Acquires w (t.obtain padded i r w).2.2.1 (t.obtain padded i r w).2.2.2 := by
  unfold obtain
  split
  · exact .none rfl (.refl w)
  · exact (r.acquires_carve padded _).report rfl

theorem BucketTable.acquires_take (t : BucketTable) (size : ℕ) (r : RegionSource)
    (w : Machine π) : r.Acquires w (t.take size r w).2.2.1 (t.take size r w).2.2.2 := by
  unfold take
  split
  · exact .none rfl (.refl w)
  · next padded i _ =>
    have ho := t.acquires_obtain padded i r w
    split
    · next h => rwa [h] at ho
    · next h =>
      rw [h] at ho
      exact ho.write _

namespace Heap

theorem acquires_takeOversized (h : Heap) (total : ℕ) (w : Machine π) :
    h.regions.Acquires w (h.takeOversized total w).2.1.regions (h.takeOversized total w).2.2 := by
  have hr := Tells.reserve w (total + Chunk.oversizedPrefix)
  simp only [takeOversized]
  split
  · exact .none rfl (.refl w)
  · split
    · next h =>
      rw [h] at hr
      exact .none rfl hr
    · next base w' h =>
      rw [h] at hr
      exact .none rfl (hr.trans (Tells.note (n := .event (.reservedOversized ..)) w' rfl))

theorem acquires_takeChunk (h : Heap) (total : ℕ) (w : Machine π) :
    h.regions.Acquires w (h.takeChunk total w).2.1.regions (h.takeChunk total w).2.2 := by
  unfold takeChunk
  split
  · exact BucketTable.acquires_take _ _ _ _
  · exact h.acquires_takeOversized total w

theorem acquires_alloc (h : Heap) (size align : ℕ) (w : Machine π) :
    h.regions.Acquires w (h.alloc size align w).2.1.regions (h.alloc size align w).2.2 := by
  unfold alloc
  split
  · exact .none rfl (.refl w)
  · split
    · exact .none rfl (.refl w)
    · next total _ =>
      have ht := h.acquires_takeChunk total w
      split
      · next hx => rwa [hx] at ht
      · next hx =>
        rw [hx] at ht
        split
        · exact ht
        · exact ht.write _

theorem acquires_allocate (h : Heap) (layout : Layout) (w : Machine π) :
    h.regions.Acquires w (h.allocate layout w).2.1.regions (h.allocate layout w).2.2 := by
  have ha := h.acquires_alloc layout.size layout.align w
  unfold allocate
  split
  · next hx => rwa [hx] at ha
  · next hx =>
    rw [hx] at ha
    split
    · exact ha
    · exact ha

theorem acquires_allocateZeroed (h : Heap) (layout : Layout) (w : Machine π) :
    h.regions.Acquires w (h.allocateZeroed layout w).2.1.regions
      (h.allocateZeroed layout w).2.2 := by
  have ha := h.acquires_allocate layout w
  unfold allocateZeroed
  split
  · next hx => rwa [hx] at ha
  · next hx =>
    rw [hx] at ha
    exact ha.write _

/-- What is given back leaves the regions as they are, and a release is the last
that a heap does in one operation. -/
theorem free_silent (h : Heap) (ptr : ℕ) (w : Machine π) :
    (h.free ptr w).2.1.regions = h.regions ∧
      reportedTails ((h.free ptr w).2.2.journal.drop w.journal.length) = [] := by
  have hnone : reportedTails (w.journal.drop w.journal.length) = [] := by
    rw [List.drop_length]
    rfl
  simp only [free]
  split
  · exact ⟨rfl, hnone⟩
  · have hnotes : ∀ base len, reportedTails
        (((w.report (.releasingOversized base len)).release base len).journal.drop
          w.journal.length) = [] := by
      intro base len
      rw [release, report, Machine.log, Machine.log, List.append_assoc, List.drop_left]
      rfl
    unfold freeOversized
    simp only
    split
    · exact ⟨rfl, hnotes _ _⟩
    · exact ⟨rfl, hnotes _ _⟩

theorem deallocate_silent (h : Heap) (block : Block) (w : Machine π) :
    (h.deallocate block w).2.1.regions = h.regions ∧
      reportedTails ((h.deallocate block w).2.2.journal.drop w.journal.length) = [] := by
  unfold deallocate
  split
  · rw [List.drop_length]
    exact ⟨rfl, rfl⟩
  · exact h.free_silent block.ptr w

end Heap

/-- The space behind the cursor of the current region. -/
def RegionSource.ahead (r : RegionSource) : ℕ :=
  if r.bases = [] then 0 else r.regionSize - r.cursor

/-- One tail was reported for each region. Without the first one they are just what is
in no chunk and not ahead of the cursor. -/
structure RegionSource.Tallied (r : RegionSource) (cuts : List Span) (tails : List ℕ) :
    Prop where
  count : tails.length = r.bases.length
  first : ∀ n ∈ tails.head?, n = r.regionSize
  balance : r.bases.length * r.regionSize =
    (cuts.map Span.len).sum + tails.tail.sum + r.ahead

namespace RegionSource.Tallied

variable {r : RegionSource} {cuts : List Span} {tails : List ℕ} {n base : ℕ}

theorem current {bases : List ℕ} (h : r.Tallied cuts tails) (held : r.bases = base :: bases)
    (fits : r.cursor + n ≤ r.regionSize) :
    Tallied { r with cursor := r.cursor + n } (⟨base + r.cursor, n⟩ :: cuts) tails where
  count := h.count
  first := h.first
  balance := by
    have hbalance := h.balance
    simp only [ahead, held, reduceCtorEq, if_false, List.map_cons, List.sum_cons] at hbalance ⊢
    omega

theorem next (h : r.Tallied cuts tails) (hzero : r.bases = [] → r.cursor = 0)
    (hc : r.cursor ≤ r.regionSize) (hn : n ≤ r.regionSize) :
    Tallied { r with bases := base :: r.bases, cursor := n } (⟨base, n⟩ :: cuts)
      (tails ++ [r.regionSize - r.cursor]) := by
  have hcount := h.count
  have hbalance := h.balance
  have hahead : ahead { r with bases := base :: r.bases, cursor := n } = r.regionSize - n := by
    simp [ahead]
  cases tails with
  | nil =>
    -- the first region replaces none, and nothing was cut before it
    have hb : r.bases = [] := List.eq_nil_of_length_eq_zero hcount.symm
    rw [hzero hb, Nat.sub_zero]
    simp only [ahead, hb, if_true, List.length_nil, Nat.zero_mul, List.tail_nil,
      List.sum_nil] at hbalance
    constructor
    · simp [hb]
    · simp
    · rw [hahead]
      simp only [hb, List.length_cons, List.length_nil, List.map_cons, List.sum_cons,
        List.nil_append, List.tail_cons, List.sum_nil]
      omega
  | cons first rest =>
    have hb : r.bases ≠ [] := by
      rintro hb
      simp [hb] at hcount
    rw [ahead, if_neg hb, List.tail_cons] at hbalance
    constructor
    · rw [List.length_append, hcount]
      rfl
    · exact h.first
    · rw [hahead]
      simp only [List.length_cons, List.cons_append, List.map_cons, List.sum_cons,
        List.tail_cons, List.sum_append, List.sum_nil, Nat.add_mul, Nat.one_mul]
      omega

end RegionSource.Tallied

/-- Just the bytes behind the cursor belong to no chunk. -/
theorem Tiled.card_uncut {R base cursor : ℕ} {bases : List ℕ} {cuts : List Span}
    (h : Tiled R (base :: bases) cursor cuts)
    (hr : ((base :: bases).map (Span.mk · R)).Pairwise Span.Disjoint) :
    ((Finset.Ico base (base + R)).filter (Outside cuts ·)).card = R - cursor := by
  have huncut : (Finset.Ico base (base + R)).filter (Outside cuts ·) =
      Finset.Ico (base + cursor) (base + R) := by
    ext x
    simp only [Finset.mem_filter, Finset.mem_Ico]
    constructor
    · rintro ⟨⟨hlow, hhigh⟩, houtside⟩
      refine ⟨Nat.le_of_not_lt fun hlt => ?_, hhigh⟩
      obtain ⟨parts, hp⟩ := h.exists_parts
      obtain ⟨rest, rfl⟩ := hp.eq_cons
      obtain ⟨t, ht, hx⟩ := hp.covered _ List.mem_cons_self x ⟨hlow, hlt⟩
      exact houtside t ht hx
    · rintro ⟨hlow, hhigh⟩
      refine ⟨⟨by omega, hhigh⟩, fun t ht hx => ?_⟩
      rcases h.within t ht with ⟨b, hb, hw⟩ | ⟨b, hb, hw⟩
      · obtain rfl : base = b := by simpa using hb
        simp only [Span.Within, Span.Covers, Span.stop] at hw hx
        omega
      · have hd := (List.pairwise_cons.mp hr).1 ⟨b, R⟩ (List.mem_map_of_mem hb)
        simp only [Span.Within, Span.Covers, Span.Disjoint, Span.stop] at hw hx hd
        omega
  rw [huncut, Nat.card_Ico]
  omega

namespace World

variable {s : World π} {g g' : Ideal} {a : Action}

/-- The tails that a step reports. -/
def tails (s : World π) (a : Action) : List ℕ :=
  reportedTails ((s.step a).2.machine.journal.drop s.machine.journal.length)

/-- The tails that a run reports, the first one first. -/
def allTails : List Action → World π → List ℕ
  | [], _ => []
  | a :: acts, s => s.tails a ++ allTails acts (s.step a).2

omit [Platform π] in
/-- The bytes of the current region that were never part of a chunk. -/
def uncut (s : World π) : ℕ :=
  match s.heap.regions.bases with
  | [] => 0
  | base :: _ =>
      ((Finset.Ico base (base + s.heap.regions.regionSize)).filter (Outside s.cuts ·)).card

/-- A region is entered and one tail is reported, or neither. -/
theorem step_tails (s : World π) (a : Action) :
    ((s.step a).2.heap.regions.bases = s.heap.regions.bases ∧ s.tails a = []) ∨
    ∃ base, (s.step a).2.heap.regions.bases = base :: s.heap.regions.bases ∧
      s.tails a = [s.heap.regions.regionSize - s.heap.regions.cursor] := by
  have hacquires : ∀ {r w}, s.heap.regions.Acquires s.machine r w →
      (r.bases = s.heap.regions.bases ∧
        reportedTails (w.journal.drop s.machine.journal.length) = []) ∨
      ∃ base, r.bases = base :: s.heap.regions.bases ∧
        reportedTails (w.journal.drop s.machine.journal.length) =
          [s.heap.regions.regionSize - s.heap.regions.cursor] := by
    intro r w h
    cases h with
    | none same told => exact Or.inl ⟨same, told.reported⟩
    | one entered told => exact Or.inr ⟨_, entered, told.reported⟩
  unfold tails
  cases a with
  | alloc size align =>
    have ha := hacquires (s.heap.acquires_alloc size align s.machine)
    simp only [step]
    split
    · next hx => rwa [hx] at ha
    · next hx => rwa [hx] at ha
  | allocate layout zeroed =>
    have ha := hacquires (s.heap.acquires_allocate layout s.machine)
    have hz := hacquires (s.heap.acquires_allocateZeroed layout s.machine)
    cases zeroed with
    | false =>
      simp only [step, Bool.false_eq_true, if_false]
      split
      · next hx => rwa [hx] at ha
      · next hx => rwa [hx] at ha
    | true =>
      simp only [step, if_true]
      split
      · next hx => rwa [hx] at hz
      · next hx => rwa [hx] at hz
  | free ptr =>
    obtain ⟨hregions, htails⟩ := s.heap.free_silent ptr s.machine
    exact Or.inl ⟨congrArg RegionSource.bases hregions, htails⟩
  | deallocate block =>
    obtain ⟨hregions, htails⟩ := s.heap.deallocate_silent block s.machine
    exact Or.inl ⟨congrArg RegionSource.bases hregions, htails⟩
  | paddedSize block => exact Or.inl ⟨rfl, by rw [step, List.drop_length]; rfl⟩
  | write addr bytes => exact Or.inl ⟨rfl, by rw [step, List.drop_length]; rfl⟩

omit [Platform π] in
theorem Mirrors.uncut_eq (hs : s.Mirrors g) (hb : s.heap.regions.bases ≠ []) :
    s.uncut = s.heap.regions.regionSize - s.heap.regions.cursor := by
  have hr := hs.kept.represents.regions
  obtain ⟨base, bases, hbases⟩ := List.exists_cons_of_ne_nil hb
  have hg : g.bases = base :: bases := by
    rw [hr] at hbases
    exact hbases
  have htiled := hs.owns.tiled
  have hapart := (List.pairwise_append.mp hs.owns.regions_apart).1
  rw [hg] at htiled hapart
  rw [uncut, hbases, hr]
  exact htiled.card_uncut hapart

omit [Platform π] in
theorem Mirrors.cursor_eq_zero (hs : s.Mirrors g) (hb : s.heap.regions.bases = []) :
    s.heap.regions.cursor = 0 := by
  have hr := hs.kept.represents.regions
  rw [hr] at hb ⊢
  exact (hb ▸ hs.owns.tiled : Tiled g.regionSize [] g.cursor s.cuts).cursor_eq_zero

/-- What a step reports. -/
inductive Reports (s : World π) (a : Action) : Prop
  | silent (same : (s.step a).2.heap.regions.bases = s.heap.regions.bases)
      (tails : s.tails a = []) : Reports s a
  | first {base : ℕ} (before : s.heap.regions.bases = [])
      (entered : (s.step a).2.heap.regions.bases = [base])
      (tails : s.tails a = [s.heap.regions.regionSize]) : Reports s a
  | replaced {base : ℕ} (before : s.heap.regions.bases ≠ [])
      (entered : (s.step a).2.heap.regions.bases = base :: s.heap.regions.bases)
      (tails : s.tails a = [s.uncut]) : Reports s a

theorem Mirrors.reports (hs : s.Mirrors g) (a : Action) : s.Reports a := by
  rcases s.step_tails a with ⟨hsame, htails⟩ | ⟨base, hentered, htails⟩
  · exact .silent hsame htails
  · by_cases hb : s.heap.regions.bases = []
    · rw [hs.cursor_eq_zero hb, Nat.sub_zero] at htails
      rw [hb] at hentered
      exact .first hb hentered htails
    · rw [← hs.uncut_eq hb] at htails
      exact .replaced hb hentered htails

/-- The tails account for the space of the regions. -/
def Tallied (s : World π) (tails : List ℕ) : Prop := s.heap.regions.Tallied s.cuts tails

theorem Mirrors.tallied_step {tails : List ℕ} (hs : s.Mirrors g) (h : s.Tallied tails)
    (ha : s.Ready a) (hh : (s.step a).2.machine.Honoured) :
    (s.step a).2.Tallied (tails ++ s.tails a) := by
  unfold Tallied at h ⊢
  obtain ⟨g', hs', hm⟩ := hs.step_moves ha hh
  have hreports := s.step_tails a
  rcases hs.cut_cases hs' hm with ⟨hregions, hcuts⟩ |
    ⟨size, align, c, t, hp, -, -, hcut, hcuts⟩
  · rw [hregions] at hreports ⊢
    rw [hcuts]
    obtain ⟨-, htails⟩ := hreports.resolve_right fun ⟨base, hbase, _⟩ => by simp at hbase
    rw [htails, List.append_nil]
    exact h
  · rw [hcuts]
    generalize (s.step a).2.heap.regions = r' at hcut hreports ⊢
    cases hcut with
    | @current base bases held fits =>
      obtain ⟨-, htails⟩ := hreports.resolve_right fun ⟨base, hbase, _⟩ => by simp at hbase
      rw [htails, List.append_nil]
      exact h.current held fits
    | @next base full =>
      obtain ⟨-, -, htails⟩ := hreports.resolve_left fun hsame => by simp at hsame
      have hcursor : s.heap.regions.cursor ≤ s.heap.regions.regionSize := by
        rw [hs.kept.represents.regions]
        exact hs.owns.tiled.cursor_le
      have hfits : c.padded size align ≤ s.heap.regions.regionSize := by
        rw [hs.kept.represents.regions]
        exact hp.padded_le.trans hs.owns.roomy
      rw [htails]
      exact h.next hs.cursor_eq_zero hcursor hfits

/-- The tally goes on through a run. -/
theorem Mirrors.tallied_after {acts : List Action} {tails : List ℕ} (hs : s.Mirrors g)
    (h : s.Tallied tails) (hv : Valid acts s) (hh : (after acts s).machine.Honoured) :
    (after acts s).Tallied (tails ++ allTails acts s) := by
  induction acts generalizing s g tails with
  | nil =>
    rw [allTails, List.append_nil]
    exact h
  | cons a acts ih =>
    obtain ⟨ha, hv⟩ := hv
    have hstep := hs.tallied_step h ha (honoured_step hh)
    have hrest := ih (hs.step_follows ha (honoured_step hh)).mirrors hstep hv hh
    rwa [List.append_assoc] at hrest

theorem region_space_accounted {h : Heap} (hf : h.Fresh) (w : Machine π) {acts : List Action}
    (hv : Valid acts (start h w)) (hh : (after acts (start h w)).machine.Honoured) :
    (∀ a, (after acts (start h w)).Reports a) ∧
    (after acts (start h w)).Tallied (allTails acts (start h w)) := by
  have hs := (hf.mirrors w).after_mirrors hv hh
  refine ⟨hs.1.reports, ?_⟩
  have hstart : (start h w).Tallied [] := by
    obtain ⟨id, size, rfl, -⟩ := hf.exists_eq
    exact ⟨rfl, by simp, by simp [start, Heap.empty, RegionSource.ahead]⟩
  exact (hf.mirrors w).tallied_after hstart hv hh

/-- Requests of which two are refused a region and are made again. The sixth of the
big chunks is the one for which the first region has no room left. -/
def freight : List Action :=
  List.replicate 2 (.alloc 16 8) ++ List.replicate 6 (.alloc 1000000 8)

theorem region_space_accounted_freight :
    allTails freight strained = [4194304, 180192] ∧
    (after freight strained).Tallied (allTails freight strained) ∧
    (after freight strained).Reports (.alloc 2000 16) := by
  have htails : allTails freight strained = [4194304, 180192] := by decide +kernel
  have hv : Valid freight strained := by decide +kernel
  -- naming the fact about the whole journal would evaluate it in the elaborator
  have : (after freight strained).machine.Honoured := by decide +kernel
  obtain ⟨hreports, htallied⟩ := region_space_accounted (.plain 7) _ hv ‹_›
  exact ⟨htails, htallied, hreports _⟩

/-- The first region replaces none. The whole of it is reported as abandoned all the
same, so the tails reported are too many for the space there is. -/
theorem first_region_misreported :
    onArena.heap.regions.bases = [] ∧ onArena.Ready (.alloc 16 8) ∧
    (onArena.step (.alloc 16 8)).2.machine.Honoured ∧
    (onArena.step (.alloc 16 8)).2.heap.stats.regions = 1 ∧
    onArena.tails (.alloc 16 8) = [4194304] ∧
    (onArena.step (.alloc 16 8)).2.heap.stats.regions *
        (onArena.step (.alloc 16 8)).2.heap.stats.regionSize <
      (((onArena.step (.alloc 16 8)).2.cuts.map Span.len).sum +
        (onArena.tails (.alloc 16 8)).sum) +
        (onArena.step (.alloc 16 8)).2.heap.regions.ahead := by
  decide +kernel

end World

end ChunkHeap
