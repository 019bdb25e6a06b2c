import Mathlib
import ChunkHeap.Proofs.Ideal
import ChunkHeap.Proofs.Tiling

/-!
# Who owns which bytes

Every chunk ever cut off a region is either free on one stack or the place of
one pointer. What is held from the platform is the regions and the reservations
of oversized places. So any two places or free chunks are disjoint. None of this
looks at memory.
-/

set_option autoImplicit false

namespace ChunkHeap

def buckets : List (SizeClass × Fin bucketCount) :=
  [SizeClass.small, .medium, .big] ×ˢ List.finRange bucketCount

theorem mem_buckets (k : SizeClass × Fin bucketCount) : k ∈ buckets := by
  obtain ⟨c, i⟩ := k
  have hc : c ∈ [SizeClass.small, .medium, .big] := by cases c <;> simp
  exact List.mem_product.mpr ⟨hc, List.mem_finRange i⟩

theorem nodup_buckets : buckets.Nodup :=
  List.Nodup.product (by decide) (List.nodup_finRange _)

/-- One more item under one key is one more item in all. -/
theorem flatMap_perm_cons {κ β : Type} {keys : List κ} (hn : keys.Nodup) {f f' : κ → List β}
    {k : κ} {b : β} (hk : k ∈ keys) (hf : f k = b :: f' k) (ho : ∀ j ≠ k, f j = f' j) :
    (keys.flatMap f).Perm (b :: keys.flatMap f') := by
  induction keys with
  | nil => simp at hk
  | cons j keys ih =>
    obtain ⟨hj, hn⟩ := List.nodup_cons.mp hn
    rw [List.flatMap_cons, List.flatMap_cons]
    by_cases hjk : j = k
    · subst hjk
      have hrest : keys.flatMap f = keys.flatMap f' := by
        apply List.flatMap_congr
        intro i hi
        exact ho i fun h => hj (h ▸ hi)
      rw [hf, hrest]
      exact List.Perm.refl _
    · have hk' : k ∈ keys := (List.mem_cons.mp hk).resolve_left fun h => hjk h.symm
      rw [ho j hjk]
      exact ((ih hn hk').append_left _).trans List.perm_middle

theorem sum_eq_succ {n : ℕ} {f f' : Fin n → ℕ} {i : Fin n} (hf : f i = f' i + 1)
    (ho : ∀ j ≠ i, f j = f' j) : ∑ j, f j = ∑ j, f' j + 1 := by
  have hsum := Finset.add_sum_erase Finset.univ f (Finset.mem_univ i)
  have hsum' := Finset.add_sum_erase Finset.univ f' (Finset.mem_univ i)
  have hrest : ∑ j ∈ Finset.univ.erase i, f j = ∑ j ∈ Finset.univ.erase i, f' j :=
    Finset.sum_congr rfl fun j hj => ho j (Finset.ne_of_mem_erase hj)
  omega

namespace Ideal

variable (g : Ideal) (c : SizeClass) (i : Fin bucketCount) (chunks : List ℕ)

def shelf (k : SizeClass × Fin bucketCount) : List Span :=
  (g.stack k.1 (k.1.bucketSize k.2)).map (Span.mk · (k.1.bucketSize k.2))

def freeSpans : List Span := buckets.flatMap g.shelf

@[simp] theorem withStack_stack : (g.withStack c (c.bucketSize i) chunks).stack c
    (c.bucketSize i) = chunks := by
  simp [withStack]

theorem withStack_other {c' : SizeClass} {i' : Fin bucketCount} (h : (c', i') ≠ (c, i)) :
    (g.withStack c (c.bucketSize i) chunks).stack c' (c'.bucketSize i') =
      g.stack c' (c'.bucketSize i') := by
  have hne : ¬ (c' = c ∧ c'.bucketSize i' = c.bucketSize i) := by
    rintro ⟨rfl, hi⟩
    exact h (by rw [c'.bucketSize_injective hi])
  exact if_neg hne

theorem freeSpans_withStack {chunk : ℕ} (h : g.stack c (c.bucketSize i) = chunk :: chunks) :
    g.freeSpans.Perm (⟨chunk, c.bucketSize i⟩ ::
      (g.withStack c (c.bucketSize i) chunks).freeSpans) := by
  apply flatMap_perm_cons nodup_buckets (mem_buckets (c, i))
  · simp [shelf, h]
  · rintro ⟨c', i'⟩ hne
    simp only [shelf]
    rw [withStack_other g c i chunks hne]

theorem withStack_undo (padded : ℕ) :
    (g.withStack c padded chunks).withStack c padded (g.stack c padded) = g := by
  have hs : (fun c' n => if c' = c ∧ n = padded then g.stack c padded else
      if c' = c ∧ n = padded then chunks else g.stack c' n) = g.stack := by
    funext c' n
    by_cases h : c' = c ∧ n = padded
    · rw [if_pos h, h.1, h.2]
    · rw [if_neg h, if_neg h]
  exact congrArg (fun stack => { g with stack := stack }) hs

theorem freeSpans_push (chunk : ℕ) :
    (g.withStack c (c.bucketSize i) (chunk :: g.stack c (c.bucketSize i))).freeSpans.Perm
      (⟨chunk, c.bucketSize i⟩ :: g.freeSpans) := by
  have h := freeSpans_withStack (g.withStack c (c.bucketSize i) (chunk :: _)) c i
    (g.stack c (c.bucketSize i)) (withStack_stack g c i _)
  rwa [withStack_undo] at h

theorem mem_freeSpans {s : Span} : s ∈ g.freeSpans ↔
    ∃ c i, ∃ chunk ∈ g.stack c (c.bucketSize i), s = ⟨chunk, c.bucketSize i⟩ := by
  simp only [freeSpans, List.mem_flatMap, shelf, List.mem_map]
  constructor
  · rintro ⟨⟨c, i⟩, -, chunk, hc, rfl⟩
    exact ⟨c, i, chunk, hc, rfl⟩
  · rintro ⟨c, i, chunk, hc, rfl⟩
    exact ⟨(c, i), mem_buckets _, chunk, hc, rfl⟩

theorem freeCount_withStack {chunk : ℕ} (h : g.stack c (c.bucketSize i) = chunk :: chunks) :
    g.freeCount c = (g.withStack c (c.bucketSize i) chunks).freeCount c + 1 := by
  apply sum_eq_succ (i := i)
  · simp [h]
  · intro j hj
    rw [withStack_other g c i chunks (by simpa using hj)]

theorem freeCount_push (chunk : ℕ) :
    (g.withStack c (c.bucketSize i) (chunk :: g.stack c (c.bucketSize i))).freeCount c =
      g.freeCount c + 1 := by
  have h := freeCount_withStack (g.withStack c (c.bucketSize i) (chunk :: _)) c i
    (g.stack c (c.bucketSize i)) (withStack_stack g c i _)
  rwa [withStack_undo] at h

theorem freeCount_withStack_other {c' : SizeClass} (h : c' ≠ c) (padded : ℕ) :
    (g.withStack c padded chunks).freeCount c' = g.freeCount c' := by
  simp [freeCount, withStack, h]

end Ideal

/-- The ideal heap and the places of its pointers account for all ranges held
and all chunks cut. -/
structure Owns (g : Ideal) (places : List Place) (held cuts : List Span) : Prop where
  pos : ∀ r ∈ held, 0 < r.start
  aligned : ∀ r ∈ held, 8 ∣ r.start
  below : ∀ r ∈ held, r.stop ≤ layoutLimit
  apart : held.Pairwise Span.Disjoint
  regions : held.Perm
    (g.bases.map (Span.mk · g.regionSize) ++ places.filterMap Place.reservation?)
  tiled : Tiled g.regionSize g.bases g.cursor cuts
  pieces : cuts.Perm (places.filterMap Place.piece? ++ g.freeSpans)
  oversized : g.oversized = (places.filterMap Place.reservation?).length
  roomy : SizeClass.big.maxSize ≤ g.regionSize

theorem Place.extents_perm (places : List Place) : (places.map Place.extent).Perm
    (places.filterMap Place.piece? ++ places.filterMap Place.reservation?) := by
  induction places with
  | nil => exact List.Perm.refl _
  | cons p places ih =>
    cases p with
    | pooled => exact ih.cons _
    | reserved => exact (ih.cons _).trans List.perm_middle.symm

namespace Owns

variable {g : Ideal} {places : List Place} {held cuts : List Span}

theorem extents_perm (h : Owns g places held cuts) :
    (places.map Place.extent ++ g.freeSpans).Perm
      (cuts ++ places.filterMap Place.reservation?) := by
  have h₁ := (Place.extents_perm places).append_right g.freeSpans
  have h₂ := h.pieces.symm.append_right (places.filterMap Place.reservation?)
  apply h₁.trans (List.Perm.trans _ h₂)
  rw [List.append_assoc, List.append_assoc]
  exact List.perm_append_comm.append_left _

theorem regions_apart (h : Owns g places held cuts) :
    (g.bases.map (Span.mk · g.regionSize) ++ places.filterMap Place.reservation?).Pairwise
      Span.Disjoint :=
  (Span.pairwise_disjoint_perm h.regions).mp h.apart

theorem cuts_apart (h : Owns g places held cuts) : cuts.Pairwise Span.Disjoint :=
  h.tiled.apart (List.pairwise_append.mp h.regions_apart).1

/-- No byte belongs to two places or free chunks. -/
theorem extents_apart (h : Owns g places held cuts) :
    (places.map Place.extent ++ g.freeSpans).Pairwise Span.Disjoint := by
  obtain ⟨-, hres, hcross⟩ := List.pairwise_append.mp h.regions_apart
  rw [Span.pairwise_disjoint_perm h.extents_perm]
  -- a chunk lies in its region, which is disjoint from every reservation
  have hmixed : ∀ t ∈ cuts, ∀ r ∈ places.filterMap Place.reservation?, t.Disjoint r := by
    intro t ht r hr
    obtain ⟨b, hb, hw⟩ := h.tiled.within_region ht
    exact (hcross ⟨b, g.regionSize⟩ (List.mem_map_of_mem hb) r hr).mono hw (Span.Within.refl r)
  exact List.pairwise_append.mpr ⟨h.cuts_apart, hres, hmixed⟩

theorem within_held (h : Owns g places held cuts) {e : Span}
    (he : e ∈ places.map Place.extent ++ g.freeSpans) : ∃ r ∈ held, e.Within r := by
  rcases List.mem_append.mp (h.extents_perm.mem_iff.mp he) with ht | hr
  · obtain ⟨b, hb, hw⟩ := h.tiled.within_region ht
    have hm : ⟨b, g.regionSize⟩ ∈ g.bases.map (Span.mk · g.regionSize) := List.mem_map_of_mem hb
    exact ⟨⟨b, g.regionSize⟩, h.regions.mem_iff.mpr (List.mem_append_left _ hm), hw⟩
  · exact ⟨e, h.regions.mem_iff.mpr (List.mem_append_right _ hr), Span.Within.refl e⟩

theorem base_mem (h : Owns g places held cuts) {b : ℕ} (hb : b ∈ g.bases) :
    ⟨b, g.regionSize⟩ ∈ held :=
  h.regions.mem_iff.mpr (List.mem_append_left _ (List.mem_map_of_mem hb))

theorem withLive (h : Owns g places held cuts) (live : List (ℕ × Place)) :
    Owns { g with live := live } places held cuts :=
  { h with pos := h.pos }

theorem perm {places' : List Place} (h : Owns g places held cuts) (hp : places.Perm places') :
    Owns g places' held cuts where
  pos := h.pos
  aligned := h.aligned
  below := h.below
  apart := h.apart
  regions := h.regions.trans ((hp.filterMap _).append_left _)
  tiled := h.tiled
  pieces := h.pieces.trans ((hp.filterMap _).append_right _)
  oversized := by rw [h.oversized, (hp.filterMap _).length_eq]
  roomy := h.roomy

theorem pop (h : Owns g places held cuts) {c : SizeClass} {i : Fin bucketCount} {chunk : ℕ}
    {rest : List ℕ} (hs : g.stack c (c.bucketSize i) = chunk :: rest) :
    Owns (g.withStack c (c.bucketSize i) rest) (.pooled c chunk (c.bucketSize i) :: places)
      held cuts where
  pos := h.pos
  aligned := h.aligned
  below := h.below
  apart := h.apart
  regions := h.regions
  tiled := h.tiled
  pieces := h.pieces.trans
    (((g.freeSpans_withStack c i rest hs).append_left _).trans List.perm_middle)
  oversized := h.oversized
  roomy := h.roomy

theorem push {c : SizeClass} {i : Fin bucketCount} {chunk : ℕ}
    (h : Owns g (.pooled c chunk (c.bucketSize i) :: places) held cuts) :
    Owns (g.withStack c (c.bucketSize i) (chunk :: g.stack c (c.bucketSize i))) places
      held cuts where
  pos := h.pos
  aligned := h.aligned
  below := h.below
  apart := h.apart
  regions := h.regions
  tiled := h.tiled
  pieces := by
    have hs := g.freeSpans_push c i chunk
    exact h.pieces.trans ((hs.append_left _).trans List.perm_middle).symm
  oversized := h.oversized
  roomy := h.roomy

theorem cut {base padded : ℕ} {bases : List ℕ} {c : SizeClass} (h : Owns g places held cuts)
    (hb : g.bases = base :: bases) (hp : 0 < padded) (hd : 8 ∣ padded)
    (hf : g.cursor + padded ≤ g.regionSize) :
    Owns { g with cursor := g.cursor + padded } (.pooled c (base + g.cursor) padded :: places)
      held (⟨base + g.cursor, padded⟩ :: cuts) where
  pos := h.pos
  aligned := h.aligned
  below := h.below
  apart := h.apart
  regions := h.regions
  tiled := by
    have ht := h.tiled
    rw [hb] at ht ⊢
    exact ht.cut hp hd hf
  pieces := h.pieces.cons _
  oversized := h.oversized
  roomy := h.roomy

theorem enter {base : ℕ} (h : Owns g places held cuts)
    (hg : Grantable ⟨base, g.regionSize⟩ held) :
    Owns { g with bases := base :: g.bases, cursor := 0 } places
      (⟨base, g.regionSize⟩ :: held) cuts where
  pos := List.forall_mem_cons.mpr ⟨hg.pos, h.pos⟩
  aligned := List.forall_mem_cons.mpr ⟨hg.aligned, h.aligned⟩
  below := List.forall_mem_cons.mpr ⟨hg.below, h.below⟩
  apart := List.pairwise_cons.mpr ⟨hg.apart, h.apart⟩
  regions := h.regions.cons _
  tiled := h.tiled.enter base
  pieces := h.pieces
  oversized := h.oversized
  roomy := h.roomy

theorem reserve {base len : ℕ} (h : Owns g places held cuts)
    (hg : Grantable ⟨base, len⟩ held) :
    Owns { g with oversized := g.oversized + 1 } (.reserved base len :: places)
      (⟨base, len⟩ :: held) cuts where
  pos := List.forall_mem_cons.mpr ⟨hg.pos, h.pos⟩
  aligned := List.forall_mem_cons.mpr ⟨hg.aligned, h.aligned⟩
  below := List.forall_mem_cons.mpr ⟨hg.below, h.below⟩
  apart := List.pairwise_cons.mpr ⟨hg.apart, h.apart⟩
  regions := (h.regions.cons _).trans List.perm_middle.symm
  tiled := h.tiled
  pieces := h.pieces
  oversized := congrArg (· + 1) h.oversized
  roomy := h.roomy

theorem release {base len : ℕ} (h : Owns g (.reserved base len :: places) held cuts) :
    Owns { g with oversized := g.oversized - 1 } places (held.erase ⟨base, len⟩) cuts where
  pos := fun r hr => h.pos r (List.mem_of_mem_erase hr)
  aligned := fun r hr => h.aligned r (List.mem_of_mem_erase hr)
  below := fun r hr => h.below r (List.mem_of_mem_erase hr)
  apart := h.apart.sublist List.erase_sublist
  regions := by
    have hp := (h.regions.trans List.perm_middle).erase ⟨base, len⟩
    rwa [List.erase_cons_head] at hp
  tiled := h.tiled
  pieces := h.pieces
  oversized := by rw [h.oversized]; rfl
  roomy := h.roomy

end Owns

end ChunkHeap
