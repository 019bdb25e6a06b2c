import Mathlib
import ChunkHeap.Proofs.Buckets
import ChunkHeap.Proofs.Representation

/-!
# Where chunks come from

A chunk for a total comes from its bucket, from a region or from a reservation
of its own. The heap and the ideal heap that it represents take the same chunk
or are refused alike, and what is taken belongs to nobody else.
-/

set_option autoImplicit false

namespace ChunkHeap

namespace BucketTable

theorem bucket_bucketSize {t : BucketTable} {c : SizeClass} (hu : t.unit = c.unit)
    (i : Fin bucketCount) : t.bucket (c.bucketSize i) = .ok i := by
  rw [SizeClass.bucketSize, ← hu]
  exact bucket_multiple (hu ▸ c.unit_pos) i

theorem put_eq {t : BucketTable} {c : SizeClass} (hu : t.unit = c.unit)
    (i : Fin bucketCount) (chunk : ℕ) (m : Memory) :
    t.put (c.bucketSize i) chunk m = (.ok (), { t with
      heads := t.heads.set i.val (some chunk) i.isLt
      count := t.count + 1 }, Chunk.setNext m chunk (t.heads.get i)) := by
  rw [SizeClass.bucketSize, ← hu]
  exact put_multiple (hu ▸ c.unit_pos) i chunk m

theorem fit_pooled {t : BucketTable} {c : SizeClass} {i : Fin bucketCount} {total : ℕ}
    (hu : t.unit = c.unit) (hc : Regime.ofSize total = .pooled c) (h0 : 0 < total)
    (hi : Word.ceil total c.unit = c.bucketSize i) :
    t.fit total = .ok (c.bucketSize i, i) := by
  obtain ⟨k, hk⟩ := c.unit_two_pow
  have hmax := (Regime.le_maxSize h0 hc).trans c.maxSize_le
  have hle := (c.unit_le_bucketSize i).trans ((c.bucketSize_le i).trans c.maxSize_le)
  have hsum : total + c.unit < wordLimit :=
    lt_of_le_of_lt (Nat.add_le_add hmax hle) (by decide)
  rw [← hi]
  rw [SizeClass.bucketSize, ← hu] at hi
  rw [← hu] at hsum ⊢
  exact fit_multiple (hu.trans hk) hsum hi

end BucketTable

namespace RegionSource

variable {π : Type} [Platform π] {r : RegionSource} {size : ℕ} {w : Machine π}

theorem carve_room {base : ℕ} {bases : List ℕ} (hb : r.bases = base :: bases)
    (hf : r.cursor + size ≤ r.regionSize) (hw : r.regionSize < wordLimit) :
    r.carve size w = (.ok (base + r.cursor), { r with cursor := r.cursor + size }, w) := by
  have hroom : r.room size = .ok (some (base + r.cursor)) := by
    rw [room, hb]
    change (do
      let stop ← Word.add r.cursor size
      return if stop ≤ r.regionSize then some (base + r.cursor) else none :
        Except Fault (Option ℕ)) = _
    rw [Word.add_eq_ok (lt_of_le_of_lt hf hw)]
    exact congrArg Except.ok (if_pos hf)
  rw [carve, if_neg (by omega), hroom]

theorem carve_extend (hs : size ≤ r.regionSize)
    (hn : ∀ base bases, r.bases = base :: bases →
      r.regionSize < r.cursor + size ∧ r.cursor + size < wordLimit) :
    r.carve size w = r.extend size w := by
  have hroom : r.room size = .ok none := by
    unfold room
    split
    · rfl
    · next base bases hb =>
      obtain ⟨hbig, hw⟩ := hn base bases hb
      rw [Word.add_eq_ok hw]
      exact congrArg Except.ok (if_neg (Nat.not_le.mpr hbig))
  rw [carve, if_neg (by omega), hroom]

theorem extend_refused {w' : Machine π} (h : w.reserve r.regionSize = (none, w')) :
    r.extend size w = (.error (.refused (.outOfMemory r.regionSize)), r, w') := by
  rw [extend, h]

theorem extend_granted {base : ℕ} {w' : Machine π} (hc : r.cursor ≤ r.regionSize)
    (h : w.reserve r.regionSize = (some base, w')) :
    r.extend size w = (.ok base, { r with bases := base :: r.bases, cursor := size },
      w'.report (.acquiredRegion base r.regionSize (r.bases.length + 1)
        (r.regionSize - r.cursor))) := by
  rw [extend, h]
  simp only [Word.sub_eq_ok hc]

theorem grown_self (r : RegionSource) : r.grown r = [] := by
  unfold grown
  split <;> simp

theorem grown_cut {base : ℕ} {bases : List ℕ} (hb : r.bases = base :: bases) (hs : 0 < size) :
    r.grown { r with cursor := r.cursor + size } = [⟨base + r.cursor, size⟩] := by
  simp [grown, hb, hs]

theorem grown_extend (base : ℕ) (hs : 0 < size) :
    r.grown { r with bases := base :: r.bases, cursor := size } = [⟨base, size⟩] := by
  simp [grown, hs]

end RegionSource

variable {π : Type} {h : Heap} {w : Machine π} {g : Ideal} {cuts : List Span} {c : SizeClass}
  {i : Fin bucketCount}

/-- A chunk for a bucket is refused and nothing changes, or it is in hand, and
then the regions have lost what was cut off them. -/
inductive Obtained (h : Heap) (w : Machine π) (g : Ideal) (cuts : List Span) (c : SizeClass)
    (i : Fin bucketCount) : Except Failure ℕ × BucketTable × RegionSource × Machine π →
      Except Refusal ℕ × Ideal × Provider π → Prop
  | refused {w' : Machine π} {why : Refusal} (memory : w'.memory = w.memory)
      (held : w'.held = w.held) :
      Obtained h w g cuts c i (.error (.refused why), h.tables c, h.regions, w')
        (.error why, g, w'.provider)
  | taken {chunk : ℕ} {t : BucketTable} {r : RegionSource} {w' : Machine π} {g' : Ideal}
      (kept : Kept [.pooled c chunk (c.bucketSize i)] { h.withTable c t with regions := r }
        w'.memory g' w'.held (h.regions.grown r ++ cuts))
      (live : g'.live = g.live) :
      Obtained h w g cuts c i (.ok chunk, t, r, w') (.ok chunk, g', w'.provider)

theorem Obtained.of_report {e : Event}
    {x : Except Failure ℕ × BucketTable × RegionSource × Machine π}
    {y : Except Refusal ℕ × Ideal × Provider π} (ho : Obtained h (w.report e) g cuts c i x y) :
    Obtained h w g cuts c i x y := by
  cases ho with
  | refused memory held => exact .refused memory (held.trans (w.held_report e))
  | taken kept live => exact .taken kept live

theorem Ideal.room_some {base padded : ℕ} {bases : List ℕ} (hb : g.bases = base :: bases)
    (hf : g.cursor + padded ≤ g.regionSize) : g.room padded = some (base + g.cursor) := by
  rw [room, hb]
  exact if_pos hf

theorem Ideal.room_none {padded : ℕ}
    (hn : ∀ base bases, g.bases = base :: bases → g.regionSize < g.cursor + padded) :
    g.room padded = none := by
  unfold room
  split
  · rfl
  · next base bases hb => exact if_neg (Nat.not_le.mpr (hn base bases hb))

theorem Kept.regionSize_le {base : ℕ} {bases : List ℕ} {hand : List Place} {m : Memory}
    {held : List Span} (hk : Kept hand h m g held cuts) (hb : g.bases = base :: bases) :
    g.regionSize ≤ layoutLimit := by
  have hm : base ∈ g.bases := by simp [hb]
  have hbelow := hk.owns.below _ (hk.owns.base_mem hm)
  simp only [Span.stop] at hbelow
  omega

variable [Platform π]

theorem carve_current {base : ℕ} {bases : List ℕ} (hk : Kept [] h w.memory g w.held cuts)
    (hb : g.bases = base :: bases) (hf : g.cursor + c.bucketSize i ≤ g.regionSize) :
    Obtained h w g cuts c i ((h.regions.carve (c.bucketSize i) w).1, h.tables c,
      (h.regions.carve (c.bucketSize i) w).2) (g.cut (c.bucketSize i) w.provider) := by
  have hr := hk.represents.regions
  have hpos := c.bucketSize_pos i
  have hcarve : h.regions.carve (c.bucketSize i) w = (.ok (base + g.cursor),
      { h.regions with cursor := h.regions.cursor + c.bucketSize i }, w) := by
    rw [hr]
    exact RegionSource.carve_room hb hf ((hk.regionSize_le hb).trans_lt (by decide))
  have hgrown := RegionSource.grown_cut (r := h.regions) (by rw [hr]; exact hb) hpos
  have hcut := hk.cut hb hf
  rw [hcarve, Ideal.cut, Ideal.room_some hb hf]
  refine .taken ?_ rfl
  rw [hgrown, Heap.withTable_self, hr]
  rwa [hr] at hcut

theorem extend_obtained (hk : Kept [] h w.memory g w.held cuts)
    (hh : (h.regions.extend (c.bucketSize i) w).2.2.Honoured)
    (hroom : g.room (c.bucketSize i) = none) :
    Obtained h w g cuts c i ((h.regions.extend (c.bucketSize i) w).1, h.tables c,
      (h.regions.extend (c.bucketSize i) w).2) (g.cut (c.bucketSize i) w.provider) := by
  have hr := hk.represents.regions
  have hsize : h.regions.regionSize = g.regionSize := by rw [hr]
  have hpos := c.bucketSize_pos i
  have hcur : h.regions.cursor ≤ h.regions.regionSize := by
    rw [hr]
    exact hk.owns.tiled.cursor_le
  have hle : 0 + c.bucketSize i ≤ g.regionSize := by
    rw [Nat.zero_add]
    exact (c.bucketSize_le i).trans (c.maxSize_le.trans hk.owns.roomy)
  rw [Ideal.cut, hroom]
  rcases w.reserve_cases g.regionSize with ⟨w', hw, hp, hmem, hheld⟩ |
    ⟨base, contents, w', hw, hp, hmem, hheld, hgrant⟩
  · rw [hp, RegionSource.extend_refused (hsize ▸ hw), hsize]
    exact .refused hmem hheld
  · rw [RegionSource.extend_granted hcur (hsize ▸ hw)] at hh ⊢
    have hg := hgrant ((Machine.honoured_report _ _).mp hh)
    have hcut := (hk.enter hg contents).cut (c := c) (i := i) rfl hle
    rw [hp, ← w'.provider_report (.acquiredRegion base h.regions.regionSize
      (h.regions.bases.length + 1) (h.regions.regionSize - h.regions.cursor))]
    refine .taken ?_ rfl
    rw [RegionSource.grown_extend base hpos, Heap.withTable_self, Machine.memory_report,
      Machine.held_report, hmem, hheld]
    simpa using hcut

theorem carve_obtained (hk : Kept [] h w.memory g w.held cuts)
    (hh : (h.regions.carve (c.bucketSize i) w).2.2.Honoured) :
    Obtained h w g cuts c i ((h.regions.carve (c.bucketSize i) w).1, h.tables c,
      (h.regions.carve (c.bucketSize i) w).2) (g.cut (c.bucketSize i) w.provider) := by
  have hr := hk.represents.regions
  have hmax := (c.bucketSize_le i).trans c.maxSize_le
  by_cases hroom : ∃ base bases, g.bases = base :: bases ∧
      g.cursor + c.bucketSize i ≤ g.regionSize
  · obtain ⟨base, bases, hb, hf⟩ := hroom
    exact carve_current hk hb hf
  · have hnone : ∀ base bases, g.bases = base :: bases →
        g.regionSize < g.cursor + c.bucketSize i :=
      fun base bases hb => Nat.lt_of_not_le fun hf => hroom ⟨base, bases, hb, hf⟩
    have hcarve : h.regions.carve (c.bucketSize i) w = h.regions.extend (c.bucketSize i) w := by
      rw [hr]
      apply RegionSource.carve_extend (hmax.trans hk.owns.roomy)
      intro base bases hb
      -- the sum of cursor and size is a word because the region is held
      have hsize := hk.owns.tiled.cursor_le.trans (hk.regionSize_le hb)
      exact ⟨hnone base bases hb, (Nat.add_le_add hsize hmax).trans_lt (by decide)⟩
    rw [hcarve] at hh ⊢
    exact extend_obtained hk hh (Ideal.room_none hnone)

theorem Represents.obtain_top {chunk : ℕ} {rest : List ℕ} (hr : Represents h w.memory g)
    (hs : g.stack c (c.bucketSize i) = chunk :: rest) :
    (h.tables c).obtain (c.bucketSize i) i h.regions w = (.ok chunk,
      { h.tables c with
        heads := (h.tables c).heads.set i.val (Chunk.next? w.memory chunk) i.isLt
        count := (h.tables c).count - 1 }, h.regions, w) := by
  rw [BucketTable.obtain, (hr.head_eq hs).1]
  simp only [BucketTable.pop, Word.sub_eq_ok (hr.count_pos hs), Except.mapError]

theorem obtain_obtained (hk : Kept [] h w.memory g w.held cuts)
    (hh : ((h.tables c).obtain (c.bucketSize i) i h.regions w).2.2.2.Honoured) :
    Obtained h w g cuts c i ((h.tables c).obtain (c.bucketSize i) i h.regions w)
      (g.draw c (c.bucketSize i) w.provider) := by
  cases hs : g.stack c (c.bucketSize i) with
  | nil =>
    have hhead := hk.represents.head_none hs
    let e : Event := .bucketEmpty (c.bucketSize i) (h.tables c).unit
    have hobtain : (h.tables c).obtain (c.bucketSize i) i h.regions w =
        ((h.regions.carve (c.bucketSize i) (w.report e)).1, h.tables c,
          (h.regions.carve (c.bucketSize i) (w.report e)).2) := by
      rw [BucketTable.obtain, hhead]
    rw [hobtain] at hh ⊢
    rw [Ideal.draw, hs, ← w.provider_report e]
    apply Obtained.of_report
    apply carve_obtained _ hh
    rwa [Machine.held_report]
  | cons chunk rest =>
    rw [hk.represents.obtain_top hs, Ideal.draw, hs]
    refine .taken ?_ rfl
    rw [RegionSource.grown_self]
    exact hk.pop hs

/-- A request for a total is refused and nothing changes, or the chunk that
answers it is in hand with its header written. -/
inductive Supplied (h : Heap) (w : Machine π) (g : Ideal) (cuts : List Span) (total : ℕ) :
    Except Failure ℕ × Heap × Machine π → Except Refusal ℕ × Ideal × Provider π → Prop
  | refused {w' : Machine π} {why : Refusal} (memory : w'.memory = w.memory)
      (held : w'.held = w.held) :
      Supplied h w g cuts total (.error (.refused why), h, w') (.error why, g, w'.provider)
  | taken {chunk : ℕ} {h' : Heap} {w' : Machine π} {g' : Ideal}
      (kept : Kept [Place.of total chunk] h' w'.memory g' w'.held
        (h.regions.grown h'.regions ++ cuts))
      (headed : (Place.of total chunk).Headed w'.memory) (live : g'.live = g.live)
      (id : h'.id = h.id) :
      Supplied h w g cuts total (.ok chunk, h', w') (.ok chunk, g', w'.provider)

theorem Chunk.agreesOn_setSize {m : Memory} {chunk padded n : ℕ} {s : Span} (hp : 4 ≤ padded)
    (hs : s.Disjoint ⟨chunk, padded⟩) : m.AgreesOn (setSize m chunk n) s := by
  apply Memory.agreesOn_store m _ hs
  exact ⟨Nat.le_refl _, Nat.add_le_add_left hp chunk⟩

theorem takePooled_supplied {total : ℕ} (hk : Kept [] h w.memory g w.held cuts)
    (h0 : 0 < total) (hc : Regime.ofSize total = .pooled c)
    (hh : (h.takeChunk total w).2.2.Honoured) :
    Supplied h w g cuts total (h.takeChunk total w) (g.take total w.provider) := by
  obtain ⟨i, hi⟩ := Regime.exists_bucket h0 hc
  have hfit := BucketTable.fit_pooled (hk.represents.units c) hc h0 hi
  have hplace : ∀ chunk, Place.of total chunk = .pooled c chunk (c.bucketSize i) := by
    intro chunk
    rw [Place.of, hc]
    simp only [hi]
  simp only [Heap.takeChunk, Ideal.take, hc, BucketTable.take, hfit, hi] at hh ⊢
  rcases hx : (h.tables c).obtain (c.bucketSize i) i h.regions w with ⟨result, t, r, w'⟩
  have hw' : w'.Honoured := by
    rw [hx] at hh
    cases result <;> exact hh
  have ho := obtain_obtained hk (by rw [hx]; exact hw')
  rw [hx] at ho
  generalize g.draw c (c.bucketSize i) w.provider = y at ho ⊢
  cases ho with
  | refused memory held =>
    simp only [Heap.withTable_self]
    exact .refused memory held
  | @taken chunk _ _ _ g' kept live =>
    have hword : c.bucketSize i < 256 ^ 4 :=
      ((c.bucketSize_le i).trans c.maxSize_le).trans_lt (by decide)
    have height := c.eight_le_bucketSize i
    refine .taken ?_ ?_ live rfl
    · rw [hplace]
      exact kept.write fun s hs => Chunk.agreesOn_setSize (by omega) hs
    · rw [hplace]
      exact ⟨Chunk.size_setSize hword, by simp [Place.reservation?]⟩

theorem Place.headed_oversized {m : Memory} {base len : ℕ} (hl : len < 256 ^ 8) :
    (Place.reserved base len).Headed (Chunk.oversized m base len).2 where
  word := Chunk.size_setSize (by decide)
  length := by
    intro r hr
    obtain rfl : ⟨base, len⟩ = r := by simpa [reservation?] using hr
    have hkeep : ((m.store base 8 len).store (base + 8) 4 Chunk.oversizedMarker).load base 8 =
        (m.store base 8 len).load base 8 :=
      Memory.load_overlay_outside _ _ (Or.inl (Nat.le_refl _))
    exact hkeep.trans (by rw [Memory.load_store, Nat.mod_eq_of_lt hl])

theorem Chunk.agreesOn_oversized {m : Memory} {base len : ℕ} {s : Span} (hl : 12 ≤ len)
    (hs : s.Disjoint ⟨base, len⟩) : m.AgreesOn (oversized m base len).2 s := by
  have hlen : m.AgreesOn (m.store base 8 len) s := by
    apply Memory.agreesOn_store m _ hs
    exact ⟨Nat.le_refl _, Nat.add_le_add_left (show 8 ≤ len by omega) base⟩
  apply hlen.trans
  apply Memory.agreesOn_store _ _ hs
  simp only [Span.Within, Span.stop, oversizedPrefix]
  omega

theorem takeOversized_supplied {total : ℕ} (hk : Kept [] h w.memory g w.held cuts)
    (hc : Regime.ofSize total = .oversized) (hh : (h.takeChunk total w).2.2.Honoured) :
    Supplied h w g cuts total (h.takeChunk total w) (g.take total w.provider) := by
  simp only [Heap.takeChunk, Ideal.take, hc, Heap.takeOversized, Ideal.takeOversized] at hh ⊢
  by_cases hlimit : wordLimit ≤ total + Chunk.oversizedPrefix
  · rw [if_pos hlimit, if_pos hlimit]
    exact .refused rfl rfl
  · rw [if_neg hlimit] at hh
    rw [if_neg hlimit, if_neg hlimit]
    rcases w.reserve_cases (total + Chunk.oversizedPrefix) with ⟨w', hw, hp, hmem, hheld⟩ |
      ⟨base, contents, w', hw, hp, hmem, hheld, hgrant⟩
    · rw [hw, hp]
      exact .refused hmem hheld
    · rw [hw] at hh ⊢
      rw [hp, ← w'.provider_report (.reservedOversized base (total + Chunk.oversizedPrefix))]
      have hg := hgrant ((Machine.honoured_report _ _).mp hh)
      have hbig := Regime.ofSize_eq_oversized.mp hc
      rw [SizeClass.maxSize_big] at hbig
      have hres := (hk.reserve hg contents).write fun s hs =>
        Chunk.agreesOn_oversized (by omega) hs
      refine .taken ?_ ?_ rfl rfl
      · change Kept [Place.of total (base + Chunk.oversizedPrefix)] _
          (Chunk.oversized w'.memory base _).2 _ (w'.report _).held _
        rw [Place.of_oversized hc, RegionSource.grown_self, Machine.held_report, hheld, hmem]
        exact hres
      · change (Place.of total (base + Chunk.oversizedPrefix)).Headed
          (Chunk.oversized w'.memory base _).2
        rw [Place.of_oversized hc]
        exact Place.headed_oversized (Nat.lt_of_not_le hlimit)

/-- The heap and the ideal heap take the same chunk or are refused alike. -/
theorem takeChunk_supplied {total : ℕ} (hk : Kept [] h w.memory g w.held cuts)
    (h0 : 0 < total) (hh : (h.takeChunk total w).2.2.Honoured) :
    Supplied h w g cuts total (h.takeChunk total w) (g.take total w.provider) := by
  cases hc : Regime.ofSize total with
  | pooled c => exact takePooled_supplied hk h0 hc hh
  | oversized => exact takeOversized_supplied hk hc hh

end ChunkHeap
