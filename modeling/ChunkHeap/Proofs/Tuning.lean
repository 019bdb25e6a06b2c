import Mathlib
import ChunkHeap.Proofs.Provenance

/-!
# The size of regions is a tuning knob

Two heaps with regions of different sizes leave their regions at different times,
so their chunks lie in different places. Yet a free chunk is taken before one is
cut, and what is free depends on what was lent and given back alone. So runs that
give the same orders have the same answers, the same free chunks up to where they
lie, and take each chunk from where the other run takes it, as long as nothing is
refused.
-/

set_option autoImplicit false

namespace ChunkHeap

/-- Where the chunk of a pointer comes from. An earlier pointer that had the chunk
is told by the number of pointers handed out since. -/
inductive Origin where
  | reserved
  | carved
  | reused (since : ℕ)
  | unknown
  deriving DecidableEq, Repr

namespace World

variable {π ρ : Type}

/-- The chunk of a pointer, unless it is oversized. -/
def pooledChunk? (s : World π) (ptr : ℕ) : Option ℕ :=
  if Regime.ofSize (Chunk.size s.machine.memory (s.chunkOf ptr)) = .oversized then none
  else some (s.chunkOf ptr)

/-- The origin of the chunk of a pointer that was lent last, given the regions
before and the chunks of the pointers handed out before, the newest first. A chunk
that was never lent must be cut off a region, and no other may be. -/
def origin (s : World π) (regions : RegionSource) (lent : List (Option ℕ)) (ptr : ℕ) : Origin :=
  match s.pooledChunk? ptr with
  | none => .reserved
  | some chunk =>
      match lent.idxOf? (some chunk) with
      | some since => if s.heap.regions = regions then .reused since else .unknown
      | none => if s.heap.regions = regions then .unknown else .carved

/-- The origins of the chunks that a course hands out, step by step. -/
def lineage (regions : RegionSource) (lent : List (Option ℕ)) :
    List (Answer × World π) → List (Option Origin)
  | [] => []
  | x :: rest => x.1.ptr?.map (x.2.origin regions lent) ::
      lineage x.2.heap.regions ((x.1.ptr?.map x.2.pooledChunk?).toList ++ lent) rest

section

variable {s : World π} {regions : RegionSource} {lent : List (Option ℕ)} {ptr chunk : ℕ}

theorem origin_reserved (h : s.pooledChunk? ptr = none) :
    s.origin regions lent ptr = .reserved := by
  rw [origin, h]

theorem origin_carved (h : s.pooledChunk? ptr = some chunk) (hnew : s.heap.regions ≠ regions)
    (hlent : some chunk ∉ lent) : s.origin regions lent ptr = .carved := by
  simp only [origin, h, List.idxOf?_eq_none_iff.mpr hlent, if_neg hnew]

theorem origin_reused {since : ℕ} (h : s.pooledChunk? ptr = some chunk)
    (hold : s.heap.regions = regions) (hlent : lent.idxOf? (some chunk) = some since) :
    s.origin regions lent ptr = .reused since := by
  simp only [origin, h, hlent, if_pos hold]

end

/-- Steps that agree on all but addresses and regions, each told by its answer and
the world after it. -/
structure Agrees (x : Answer × World π) (y : Answer × World ρ) : Prop where
  answer : y.1.unplaced = x.1.unplaced
  freeSmall : y.2.heap.stats.freeSmall = x.2.heap.stats.freeSmall
  freeMedium : y.2.heap.stats.freeMedium = x.2.heap.stats.freeMedium
  freeBig : y.2.heap.stats.freeBig = x.2.heap.stats.freeBig
  oversizedLive : y.2.heap.stats.oversizedLive = x.2.heap.stats.oversizedLive
  loans : List.Forall₂ (Counterparts x.2 y.2) x.2.loans y.2.loans

/-- Chunks that were lent at the same time in both runs, given those of all
pointers handed out. -/
def Shared (past : List (Option (ℕ × ℕ))) (x y : ℕ) : Prop := some (x, y) ∈ past

def OneToOne (past : List (Option (ℕ × ℕ))) : Prop :=
  ∀ x y x' y', Shared past x y → Shared past x' y' → (x = x' ↔ y = y')

theorem not_mem_lent {past : List (Option (ℕ × ℕ))} (f : ℕ × ℕ → ℕ) {chunk : ℕ}
    (h : ∀ x y, Shared past x y → f (x, y) ≠ chunk) : some chunk ∉ past.map (Option.map f) := by
  intro hmem
  obtain ⟨_ | ⟨x, y⟩, hpair, heq⟩ := List.mem_map.mp hmem
  · cases heq
  · exact h x y hpair (Option.some.inj heq)

theorem idxOf?_map_of_injOn {α β : Type} [BEq α] [LawfulBEq α] [BEq β] [LawfulBEq β]
    {f : α → β} {a : α} {items : List α} (hf : ∀ b ∈ items, f b = f a → b = a) :
    (items.map f).idxOf? (f a) = items.idxOf? a := by
  induction items with
  | nil => rfl
  | cons b items ih =>
    obtain ⟨hfirst, hrest⟩ := List.forall_mem_cons.mp hf
    have heq : (f b == f a) = (b == a) := by
      rw [Bool.eq_iff_iff, beq_iff_eq, beq_iff_eq]
      exact ⟨hfirst, congrArg f⟩
    rw [List.map_cons, List.idxOf?_cons, List.idxOf?_cons, heq, ih hrest]

namespace OneToOne

variable {past : List (Option (ℕ × ℕ))} {x y : ℕ}

theorem idxOf?_left (h : OneToOne past) (hxy : Shared past x y) :
    (past.map (Option.map Prod.fst)).idxOf? (some x) = past.idxOf? (some (x, y)) := by
  apply idxOf?_map_of_injOn (f := Option.map Prod.fst) (a := some (x, y))
  rintro (_ | ⟨x', y'⟩) hmem heq
  · cases heq
  · obtain rfl : x' = x := Option.some.inj heq
    rw [(h _ _ _ _ hxy hmem).mp rfl]

theorem idxOf?_right (h : OneToOne past) (hxy : Shared past x y) :
    (past.map (Option.map Prod.snd)).idxOf? (some y) = past.idxOf? (some (x, y)) := by
  apply idxOf?_map_of_injOn (f := Option.map Prod.snd) (a := some (x, y))
  rintro (_ | ⟨x', y'⟩) hmem heq
  · cases heq
  · obtain rfl : y' = y := Option.some.inj heq
    rw [(h _ _ _ _ hxy hmem).mpr rfl]

theorem reserved (h : OneToOne past) : OneToOne (none :: past) := by
  intro x y x' y' hxy hxy'
  exact h x y x' y' (by simpa [Shared] using hxy) (by simpa [Shared] using hxy')

/-- A pair of chunks that is there already, or of which neither is. -/
theorem cons (h : OneToOne past)
    (hnew : Shared past x y ∨ ∀ x' y', Shared past x' y' → x' ≠ x ∧ y' ≠ y) :
    OneToOne (some (x, y) :: past) := by
  have hpair : ∀ x' y', Shared past x' y' → (x = x' ↔ y = y') := by
    intro x' y' hold
    rcases hnew with hshared | hfresh
    · exact h _ _ _ _ hshared hold
    · obtain ⟨hx, hy⟩ := hfresh _ _ hold
      exact ⟨fun heq => absurd heq.symm hx, fun heq => absurd heq.symm hy⟩
  intro x₁ y₁ x₂ y₂ h₁ h₂
  rcases List.mem_cons.mp h₁ with heq₁ | hold₁
  · obtain ⟨rfl, rfl⟩ := Prod.mk.inj (Option.some.inj heq₁)
    rcases List.mem_cons.mp h₂ with heq₂ | hold₂
    · obtain ⟨rfl, rfl⟩ := Prod.mk.inj (Option.some.inj heq₂)
      exact ⟨fun _ => rfl, fun _ => rfl⟩
    · exact hpair _ _ hold₂
  · rcases List.mem_cons.mp h₂ with heq₂ | hold₂
    · obtain ⟨rfl, rfl⟩ := Prod.mk.inj (Option.some.inj heq₂)
      rw [eq_comm, hpair _ _ hold₁, eq_comm]
    · exact h _ _ _ _ hold₁ hold₂

end OneToOne

variable {s : World π} {t : World ρ} {g g' k k' : Ideal} {made made' : List ℕ}
  {past : List (Option (ℕ × ℕ))} {a a' : Action}

/-- Loans of the same request with chunks that were lent at the same time. -/
structure Alongside (past : List (Option (ℕ × ℕ))) (l l' : Loan) : Prop where
  size : l'.size = l.size
  align : l'.align = l.align
  place : l.place.Like (Shared past) (fun _ _ => True) l'.place

/-- Worlds that have come the same way but for addresses and regions. -/
structure Abreast (s : World π) (t : World ρ) (g g' : Ideal) (made made' : List ℕ)
    (past : List (Option (ℕ × ℕ))) : Prop where
  left : s.Mirrors g
  right : t.Mirrors g'
  even : Ideal.Even (Shared past) g g'
  loans : List.Forall₂ (fun l l' => Alongside past l l' ∧ Named made made' l.ptr l'.ptr)
    s.loans t.loans
  oneToOne : OneToOne past
  cut : ∀ x y, Shared past x y → x ∈ s.cuts.map Span.start ∧ y ∈ t.cuts.map Span.start

namespace Mirrors

theorem regions_eq (hs : s.Mirrors g) : s.heap.regions = g.source := hs.kept.represents.regions

/-- No two chunks that were cut start at the same address. -/
theorem cuts_nodup (hs : s.Mirrors g) : (s.cuts.map Span.start).Nodup :=
  Span.nodup_starts hs.owns.cuts_apart hs.owns.tiled.len_pos

theorem pooledChunk?_eq (hs : s.Mirrors g) {ptr total chunk : ℕ} {live : List (ℕ × Place)}
    (h0 : 0 < total) (hlive : g.live = (ptr, Place.of total chunk) :: live) : s.pooledChunk? ptr =
      if Regime.ofSize total = .oversized then none else some chunk := by
  obtain ⟨l, rest, hl, rfl, hplace⟩ := hs.exists_lent hlive
  have hmem : l ∈ s.loans := hl ▸ List.mem_cons_self
  rw [pooledChunk?, hs.padded_eq hmem, hs.chunkOf_eq hmem, hplace, Place.ofSize_word chunk h0]
  cases hc : Regime.ofSize total with
  | pooled c => rw [Place.of, hc, Place.chunk]
  | oversized => rfl

variable [Platform π]

/-- Chunks are cut only when the regions change. -/
theorem cuts_still (hs : s.Mirrors g) (hs' : (s.step a).2.Mirrors k)
    (hsource : k.source = g.source) :
    (s.step a).2.heap.regions = s.heap.regions ∧ (s.step a).2.cuts = s.cuts := by
  have hregions : (s.step a).2.heap.regions = s.heap.regions := by
    rw [hs'.regions_eq, hs.regions_eq, hsource]
  refine ⟨hregions, ?_⟩
  rw [s.cuts_step a, hregions, RegionSource.grown_self]
  rfl

theorem cuts_grown (hs : s.Mirrors g) (hs' : (s.step a).2.Mirrors k) {n chunk : ℕ} (hn : 0 < n)
    (hcut : g.source.Cut n k.source ⟨chunk, n⟩) :
    (s.step a).2.heap.regions ≠ s.heap.regions ∧ (s.step a).2.cuts = ⟨chunk, n⟩ :: s.cuts := by
  have hgrown : s.heap.regions.grown (s.step a).2.heap.regions = [⟨chunk, n⟩] := by
    rw [hs'.regions_eq, hs.regions_eq, hcut.grown_eq hn]
  constructor
  · intro hsame
    rw [hsame, RegionSource.grown_self] at hgrown
    cases hgrown
  · rw [s.cuts_step a, hgrown]
    rfl

end Mirrors

theorem Alongside.mono {past' : List (Option (ℕ × ℕ))} {l l' : Loan} (h : Alongside past l l')
    (hp : past ⊆ past') : Alongside past' l l' :=
  ⟨h.size, h.align, h.place.mono fun _ _ hxy => hp hxy⟩

theorem Abreast.counterparts (h : Abreast s t g g' made made' past) :
    List.Forall₂ (Counterparts s t) s.loans t.loans := by
  refine forall₂_of_mem h.loans fun l hl l' hl' hp => ⟨hp.1.size, hp.1.align, ?_⟩
  rw [h.left.padded_eq hl, h.right.padded_eq hl', hp.1.place.word_eq]

theorem Abreast.agrees {x : Answer × World π} {y : Answer × World ρ}
    (h : Abreast x.2 y.2 g g' made made' past) (ha : y.1.unplaced = x.1.unplaced) :
    Agrees x y := by
  have hs := h.left.stats_eq
  have ht := h.right.stats_eq
  refine ⟨ha, ?_, ?_, ?_, ?_, h.counterparts⟩
  · rw [hs, ht]
    exact h.even.freeCount_eq .small
  · rw [hs, ht]
    exact h.even.freeCount_eq .medium
  · rw [hs, ht]
    exact h.even.freeCount_eq .big
  · rw [hs, ht]
    exact h.even.oversized

theorem Abreast.echoes (h : Abreast s t g g' made made' past) (ha : s.Ready a) (ha' : t.Ready a')
    {o : Order} (ho : a.order? made = some o) (ho' : a'.order? made' = some o) :
    Echoes s t (fun l l' => Alongside past l l' ∧ Named made made' l.ptr l'.ptr) a a' := by
  refine h.left.echoes h.right (fun l hl l' hl' hsince => ?_) ha ha' ho ho'
  exact h.right.pair_of_since h.loans (fun _ _ hp => hp.2) hl hl' hsince

variable [Platform π] [Platform ρ]

/-- What a step of each of two worlds adds to the chunks that were lent. -/
structure Advances (s : World π) (t : World ρ) (a a' : Action) (made made' : List ℕ)
    (past : List (Option (ℕ × ℕ))) (k k' : Ideal) (added : List (Option (ℕ × ℕ))) : Prop where
  abreast : Abreast (s.step a).2 (t.step a').2 k k' ((s.step a).1.ptr?.toList ++ made)
    ((t.step a').1.ptr?.toList ++ made') (added ++ past)
  answer : (t.step a').1.unplaced = (s.step a).1.unplaced
  lent : ((s.step a).1.ptr?.map (s.step a).2.pooledChunk?).toList =
    added.map (Option.map Prod.fst)
  lent' : ((t.step a').1.ptr?.map (t.step a').2.pooledChunk?).toList =
    added.map (Option.map Prod.snd)
  origin : (s.step a).1.ptr?.map
      ((s.step a).2.origin s.heap.regions (past.map (Option.map Prod.fst))) =
    (t.step a').1.ptr?.map
      ((t.step a').2.origin t.heap.regions (past.map (Option.map Prod.snd)))
  known : (s.step a).1.ptr?.map
    ((s.step a).2.origin s.heap.regions (past.map (Option.map Prod.fst))) ≠ some .unknown

theorem Abreast.strides (h : Abreast s t g g' made made' past)
    (he : Echoes s t (fun l l' => Alongside past l l' ∧ Named made made' l.ptr l'.ptr) a a')
    {p : Provider π} {q : Provider ρ} (hp : (g.step a p).2.2.Generous)
    (hq : (g'.step a' q).2.2.Generous) :
    Ideal.Strides (Shared past) g g' ((g.step a p).1, (g.step a p).2.1)
      ((g'.step a' q).1, (g'.step a' q).2.1) := by
  have hback : ∀ {l l'}, l ∈ s.loans → l' ∈ t.loans → Alongside past l l' →
      Ideal.Strides (Shared past) g g' (.returned (.ok ()), (g.free l.ptr p).1)
        (.returned (.ok ()), (g'.free l'.ptr q).1) := by
    intro l l' hl hl' hll
    rw [Ideal.free, Ideal.free, h.left.lookup_eq hl, h.right.lookup_eq hl']
    have heven := (h.even.withLive (g.forget l.ptr).live (g'.forget l'.ptr).live).giveBack hll.place
      p q
    refine .still rfl rfl rfl heven ?_ ?_
    · cases l.place <;> rfl
    · cases l'.place <;> rfl
  cases he with
  | request asks => exact h.even.request asks hp hq
  | free held held' paired => exact hback held held' paired.1
  | deallocate held held' paired ptr ptr' =>
    simp only [Ideal.step, ptr, ptr']
    exact hback held held' paired.1
  | paddedSize held held' paired ptr ptr' =>
    simp only [Ideal.step, ptr, ptr', h.left.lookup_eq held, h.right.lookup_eq held',
      Option.map_some, Option.getD_some, paired.1.place.word_eq]
    exact .still rfl rfl rfl h.even rfl rfl

/-- The pair of chunks that a request gets. -/
def pairOf (total chunk chunk' : ℕ) : Option (ℕ × ℕ) :=
  if Regime.ofSize total = .oversized then none else some (chunk, chunk')

theorem pairOf_pooled {c : SizeClass} {total : ℕ} (hc : Regime.ofSize total = .pooled c)
    (chunk chunk' : ℕ) : pairOf total chunk chunk' = some (chunk, chunk') := by
  simp [pairOf, hc]

theorem pairOf_oversized {total : ℕ} (hc : Regime.ofSize total = .oversized) (chunk chunk' : ℕ) :
    pairOf total chunk chunk' = none := by
  simp [pairOf, hc]

/-- What a new pair of chunks is to those that were lent before. -/
structure Sourced (s : World π) (t : World ρ) (a a' : Action) (ptr ptr' : ℕ)
    (past : List (Option (ℕ × ℕ))) (pair : Option (ℕ × ℕ)) : Prop where
  oneToOne : OneToOne (pair :: past)
  cut : ∀ x y, Shared (pair :: past) x y →
    x ∈ (s.step a).2.cuts.map Span.start ∧ y ∈ (t.step a').2.cuts.map Span.start
  origin : (s.step a).2.origin s.heap.regions (past.map (Option.map Prod.fst)) ptr =
    (t.step a').2.origin t.heap.regions (past.map (Option.map Prod.snd)) ptr'
  known : (s.step a).2.origin s.heap.regions (past.map (Option.map Prod.fst)) ptr ≠ .unknown

/-- A chunk lent before is reused in both runs, and any other is new in both. -/
theorem Abreast.sourced {size align chunk chunk' : ℕ} (h : Abreast s t g g' made made' past)
    (hs : (s.step a).2.Mirrors (k.lend size align chunk))
    (ht : (t.step a').2.Mirrors (k'.lend size align chunk'))
    (hgot : Ideal.Got (Shared past) g g' k k' (Chunk.headerSize + size + align) chunk chunk') :
    Sourced s t a a' (Chunk.dataAt chunk align) (Chunk.dataAt chunk' align) past
      (pairOf (Chunk.headerSize + size + align) chunk chunk') := by
  have hpos := Chunk.total_pos size align
  have hfst := hs.pooledChunk?_eq hpos rfl
  have hsnd := ht.pooledChunk?_eq hpos rfl
  cases hgot with
  | @reused c regime related source source' =>
    rw [if_neg (by simp [regime])] at hfst hsnd
    rw [pairOf_pooled regime]
    obtain ⟨hregions, hcuts⟩ := h.left.cuts_still hs source
    obtain ⟨hregions', hcuts'⟩ := h.right.cuts_still ht source'
    obtain ⟨since, hsince⟩ : ∃ since, past.idxOf? (some (chunk, chunk')) = some since := by
      rw [← Option.isSome_iff_exists, List.isSome_idxOf?]
      exact related
    have hx := origin_reused hfst hregions ((h.oneToOne.idxOf?_left related).trans hsince)
    have hy := origin_reused hsnd hregions' ((h.oneToOne.idxOf?_right related).trans hsince)
    refine ⟨h.oneToOne.cons (.inl related), ?_, hx.trans hy.symm, by simp [hx]⟩
    rw [hcuts, hcuts']
    intro x y hxy
    rcases List.mem_cons.mp hxy with heq | hold
    · obtain ⟨rfl, rfl⟩ := Prod.mk.inj (Option.some.inj heq)
      exact h.cut _ _ related
    · exact h.cut _ _ hold
  | @carved c regime cut cut' =>
    rw [if_neg (by simp [regime])] at hfst hsnd
    rw [pairOf_pooled regime]
    have hpadded := hpos.trans_le (Word.le_ceil _ c.unit_pos)
    obtain ⟨hregions, hcuts⟩ := h.left.cuts_grown hs hpadded cut
    obtain ⟨hregions', hcuts'⟩ := h.right.cuts_grown ht hpadded cut'
    -- what was lent before was cut before, and no other cut starts where the new one does
    have hfresh := hs.cuts_nodup
    have hfresh' := ht.cuts_nodup
    rw [hcuts, List.map_cons, List.nodup_cons] at hfresh
    rw [hcuts', List.map_cons, List.nodup_cons] at hfresh'
    have hnew : ∀ x y, Shared past x y → x ≠ chunk ∧ y ≠ chunk' := by
      intro x y hxy
      obtain ⟨hleft, hright⟩ := h.cut x y hxy
      exact ⟨fun heq => hfresh.1 (heq ▸ hleft), fun heq => hfresh'.1 (heq ▸ hright)⟩
    have hx := origin_carved hfst hregions (not_mem_lent Prod.fst fun x y hxy => (hnew x y hxy).1)
    have hy := origin_carved hsnd hregions' (not_mem_lent Prod.snd fun x y hxy => (hnew x y hxy).2)
    refine ⟨h.oneToOne.cons (.inr hnew), ?_, hx.trans hy.symm, by simp [hx]⟩
    rw [hcuts, hcuts', List.map_cons, List.map_cons]
    intro x y hxy
    rcases List.mem_cons.mp hxy with heq | hold
    · obtain ⟨rfl, rfl⟩ := Prod.mk.inj (Option.some.inj heq)
      exact ⟨List.mem_cons_self, List.mem_cons_self⟩
    · obtain ⟨hleft, hright⟩ := h.cut x y hold
      exact ⟨List.mem_cons_of_mem _ hleft, List.mem_cons_of_mem _ hright⟩
  | reserved regime source source' =>
    rw [if_pos regime] at hfst hsnd
    rw [pairOf_oversized regime]
    have hx : (s.step a).2.origin s.heap.regions (past.map (Option.map Prod.fst))
        (Chunk.dataAt chunk align) = .reserved := origin_reserved hfst
    have hy : (t.step a').2.origin t.heap.regions (past.map (Option.map Prod.snd))
        (Chunk.dataAt chunk' align) = .reserved := origin_reserved hsnd
    refine ⟨h.oneToOne.reserved, ?_, hx.trans hy.symm, by simp [hx]⟩
    rw [(h.left.cuts_still hs source).2, (h.right.cuts_still ht source').2]
    intro x y hxy
    exact h.cut x y (by simpa [Shared] using hxy)

theorem Abreast.lent {size align chunk chunk' : ℕ} (h : Abreast s t g g' made made' past)
    (he : Echoes s t (fun l l' => Named made made' l.ptr l'.ptr) a a')
    (hs : (s.step a).2.Mirrors (k.lend size align chunk))
    (ht : (t.step a').2.Mirrors (k'.lend size align chunk'))
    (hp : (s.step a).1.ptr? = some (Chunk.dataAt chunk align))
    (hp' : (t.step a').1.ptr? = some (Chunk.dataAt chunk' align))
    (heven : Ideal.Even (Shared past) k k')
    (hsourced : Sourced s t a a' (Chunk.dataAt chunk align) (Chunk.dataAt chunk' align) past
      (pairOf (Chunk.headerSize + size + align) chunk chunk')) :
    Abreast (s.step a).2 (t.step a').2 (k.lend size align chunk) (k'.lend size align chunk')
      ((s.step a).1.ptr?.toList ++ made) ((t.step a').1.ptr?.toList ++ made')
      (pairOf (Chunk.headerSize + size + align) chunk chunk' :: past) where
  left := hs
  right := ht
  even := (heven.withLive _ _).mono fun _ _ hxy => List.mem_cons_of_mem _ hxy
  loans := by
    have hkept : List.Forall₂ (fun l l' =>
        Alongside (pairOf (Chunk.headerSize + size + align) chunk chunk' :: past) l l' ∧
        Named made made' l.ptr l'.ptr) s.loans t.loans :=
      h.loans.imp fun _ _ hl => ⟨hl.1.mono (List.subset_cons_self _ _), hl.2⟩
    refine forall₂_loans_step hs ht he hkept ?_
    rw [hp, hp']
    refine .some fun l rest l' rest' hl hl' hsize halign => ⟨hsize, halign, ?_⟩
    rw [(hs.place_of_live hl rfl).2, (ht.place_of_live hl' rfl).2]
    unfold Place.of pairOf
    cases hc : Regime.ofSize (Chunk.headerSize + size + align) with
    | pooled c => exact .pooled List.mem_cons_self
    | oversized => exact .reserved trivial
  oneToOne := hsourced.oneToOne
  cut := hsourced.cut

/-- A step without a pointer. -/
theorem Abreast.still (h : Abreast s t g g' made made' past)
    (he : Echoes s t (fun l l' => Named made made' l.ptr l'.ptr) a a')
    (hs : (s.step a).2.Mirrors k) (ht : (t.step a').2.Mirrors k')
    (hp : (s.step a).1.ptr? = none) (hp' : (t.step a').1.ptr? = none)
    (heven : Ideal.Even (Shared past) k k') (hsource : k.source = g.source)
    (hsource' : k'.source = g'.source) :
    Abreast (s.step a).2 (t.step a').2 k k' ((s.step a).1.ptr?.toList ++ made)
      ((t.step a').1.ptr?.toList ++ made') past where
  left := hs
  right := ht
  even := heven
  loans := by
    refine forall₂_loans_step hs ht he h.loans ?_
    rw [hp, hp']
    exact .none
  oneToOne := h.oneToOne
  cut := by
    rw [(h.left.cuts_still hs hsource).2, (h.right.cuts_still ht hsource').2]
    exact h.cut

theorem Abreast.advances (h : Abreast s t g g' made made' past)
    (he : Echoes s t (fun l l' => Alongside past l l' ∧ Named made made' l.ptr l'.ptr) a a')
    {x : Answer × Ideal × Provider π} {y : Answer × Ideal × Provider ρ} (hx : Follows (s.step a) x)
    (hy : Follows (t.step a') y)
    (hst : Ideal.Strides (Shared past) g g' (x.1, x.2.1) (y.1, y.2.1)) :
    ∃ k k' added, Advances s t a a' made made' past k k' added := by
  obtain ⟨answer, k, p⟩ := x
  obtain ⟨answer', k', q⟩ := y
  obtain ⟨hanswer, hs, -⟩ := hx
  obtain ⟨hanswer', ht, -⟩ := hy
  have hnamed := he.mono fun _ _ hl => hl.2
  simp only at hanswer hanswer' hs ht hst
  cases hst with
  | still told ptr ptr' even source source' =>
    rw [← hanswer] at ptr told
    rw [← hanswer'] at ptr' told
    refine ⟨k, k', [], h.still hnamed hs ht ptr ptr' even source source', told, ?_, ?_, ?_, ?_⟩
    · rw [ptr]; rfl
    · rw [ptr']; rfl
    · rw [ptr, ptr']; rfl
    · rw [ptr]; simp
  | @lent _ _ k k' size align chunk chunk' told ptr ptr' even got =>
    rw [← hanswer] at ptr told
    rw [← hanswer'] at ptr' told
    have hsourced := h.sourced hs ht got
    have hpos := Chunk.total_pos size align
    refine ⟨_, _, [pairOf (Chunk.headerSize + size + align) chunk chunk'],
      h.lent hnamed hs ht ptr ptr' even hsourced, told, ?_, ?_, ?_, ?_⟩
    · rw [ptr, Option.map_some, hs.pooledChunk?_eq hpos rfl, pairOf]
      split_ifs <;> rfl
    · rw [ptr', Option.map_some, ht.pooledChunk?_eq hpos rfl, pairOf]
      split_ifs <;> rfl
    · rw [ptr, ptr', Option.map_some, Option.map_some, hsourced.origin]
    · rw [ptr, Option.map_some]
      exact fun heq => hsourced.known (Option.some.inj heq)

omit [Platform π] [Platform ρ] in
theorem Mirrors.mem_cuts_iff {s' : World π} (hs : s.Mirrors g) (hs' : s'.Mirrors g)
    (hloans : s'.loans = s.loans) (t : Span) : t ∈ s'.cuts ↔ t ∈ s.cuts := by
  rw [hs'.owns.pieces.mem_iff, hs.owns.pieces.mem_iff, hloans]

theorem Abreast.resume (h : Abreast s t g g' made made' past) {acts acts' rest rest' : List Action}
    {s' : World π} {t' : World ρ} (hs : Resumes made acts s rest s')
    (ht : Resumes made' acts' t rest' t') : Abreast s' t' g g' made made' past where
  left := hs.mirrors g h.left
  right := ht.mirrors g' h.right
  even := h.even
  loans := by
    rw [hs.loans, ht.loans]
    exact h.loans
  oneToOne := h.oneToOne
  cut := by
    intro x y hxy
    simpa only [List.mem_map, h.left.mem_cuts_iff (hs.mirrors g h.left) hs.loans,
      h.right.mem_cuts_iff (ht.mirrors g' h.right) ht.loans] using h.cut x y hxy

/-- Runs that give the same orders hand out chunks of the same origins, as long as
the platforms refuse nothing. -/
theorem Abreast.run {acts acts' : List Action} {os : List Order}
    (h : Abreast s t g g' made made' past) (hv : Valid acts s) (hv' : Valid acts' t)
    (hs : (after acts s).machine.Honoured) (ht : (after acts' t).machine.Honoured)
    (hp : (after acts s).machine.provider.Generous)
    (hq : (after acts' t).machine.provider.Generous)
    (ho : orders made acts s = os) (ho' : orders made' acts' t = os) :
    List.Forall₂ Agrees (course acts s) (course acts' t) ∧
    lineage t.heap.regions (past.map (Option.map Prod.snd)) (course acts' t) =
      lineage s.heap.regions (past.map (Option.map Prod.fst)) (course acts s) ∧
    some .unknown ∉ lineage s.heap.regions (past.map (Option.map Prod.fst)) (course acts s) := by
  -- writes give no order, so the induction is on the orders and not on the actions
  induction os generalizing s t g g' made made' past acts acts' with
  | nil =>
    rw [course_eq_nil ho, course_eq_nil ho']
    exact ⟨.nil, rfl, by simp [lineage]⟩
  | cons o os ih =>
    obtain ⟨a, rest, s₁, ha, hr⟩ := exists_resumes hv ho
    obtain ⟨a', rest', t₁, ha', hr'⟩ := exists_resumes hv' ho'
    have hstart := h.resume hr hr'
    have hregions : s₁.heap.regions = s.heap.regions :=
      hstart.left.regions_eq.trans h.left.regions_eq.symm
    have hregions' : t₁.heap.regions = t.heap.regions :=
      hstart.right.regions_eq.trans h.right.regions_eq.symm
    rw [hr.after] at hs hp
    rw [hr'.after] at ht hq
    rw [hr.orders] at ho
    rw [hr'.orders] at ho'
    have he := hstart.echoes hr.valid.1 hr'.valid.1 ha ha'
    have hf := hstart.left.step_follows hr.valid.1 (honoured_step hs)
    have hf' := hstart.right.step_follows hr'.valid.1 (honoured_step ht)
    have hgen := hp.shorten (grew_after rest (s₁.step a).2).answers
    have hgen' := hq.shorten (grew_after rest' (t₁.step a').2).answers
    rw [hf.provider] at hgen
    rw [hf'.provider] at hgen'
    obtain ⟨k, k', added, hstep⟩ := hstart.advances he hf hf' (hstart.strides he hgen hgen')
    obtain ⟨hsteps, hlineage, hknown⟩ := ih hstep.abreast hr.valid.2 hr'.valid.2 hs ht hp hq
      (orders_tail ha ho) (orders_tail ha' ho')
    rw [List.map_append, ← hstep.lent', List.map_append, ← hstep.lent] at hlineage
    rw [List.map_append, ← hstep.lent] at hknown
    have horigin := hstep.origin
    have hfirst := hstep.known
    rw [hregions, hregions'] at horigin
    rw [hregions] at hfirst
    rw [hr.course, hr'.course, course_cons ha, course_cons ha']
    refine ⟨.cons (hstep.abreast.agrees hstep.answer) hsteps, ?_, ?_⟩
    · rw [lineage, lineage, horigin, hlineage]
    · rw [lineage, List.mem_cons, not_or]
      exact ⟨hfirst.symm, hknown⟩

theorem region_size_only_tunes {h h' : Heap} (hf : h.Fresh) (hf' : h'.Fresh) (w : Machine π)
    (v : Machine ρ) {acts acts' : List Action} (hv : Valid acts (start h w))
    (hv' : Valid acts' (start h' v)) (hw : (after acts (start h w)).machine.Honoured)
    (hw' : (after acts' (start h' v)).machine.Honoured)
    (hp : (after acts (start h w)).machine.provider.Generous)
    (hp' : (after acts' (start h' v)).machine.provider.Generous)
    (ho : orders [] acts' (start h' v) = orders [] acts (start h w)) :
    List.Forall₂ Agrees (course acts (start h w)) (course acts' (start h' v)) ∧
    lineage h'.regions [] (course acts' (start h' v)) =
      lineage h.regions [] (course acts (start h w)) ∧
    some .unknown ∉ lineage h.regions [] (course acts (start h w)) := by
  have hstart : Abreast (start h w) (start h' v) h.ideal h'.ideal [] [] [] :=
    { left := hf.mirrors w
      right := hf'.mirrors v
      even := .empty
      loans := .nil
      oneToOne := fun _ _ _ _ hxy => absurd hxy List.not_mem_nil
      cut := fun _ _ hxy => absurd hxy List.not_mem_nil }
  exact hstart.run hv hv' hw hw' hp hp' rfl ho

/-- Requests in all regimes, with the second and the fourth pointer given back. -/
def rota (second fourth : ℕ) : List Action :=
  [.alloc 600000 8, .alloc 600000 8, .alloc 16 8, .alloc 2000000 64, .free second,
    .alloc 600001 16, .free fourth, .alloc 20 4]

/-- An arena as platform of a heap with the smallest regions. -/
def onNarrow : World (Arena × Tenant) :=
  start (Heap.empty 9 1048576) { memory := .zero, platform := ({}, {}) }

theorem region_size_only_tunes_rota :
    (course (rota 0x100000093008 0x100000400040) onArena).map (·.1.ptr?) =
      [some 0x100000000008, some 0x100000093008, some 0x100000126008, some 0x100000400040, none,
        some 0x100000093010, none, some 0x100000126028] ∧
    (course (rota 0x100000100008 0x100000200040) onNarrow).map (·.1.ptr?) =
      [some 0x100000000008, some 0x100000100008, some 0x100000193008, some 0x100000200040, none,
        some 0x100000100010, none, some 0x100000193028] ∧
    lineage onArena.heap.regions [] (course (rota 0x100000093008 0x100000400040) onArena) =
      [some .carved, some .carved, some .carved, some .reserved, none, some (.reused 2), none,
        some .carved] ∧
    List.Forall₂ Agrees (course (rota 0x100000093008 0x100000400040) onArena)
      (course (rota 0x100000100008 0x100000200040) onNarrow) ∧
    lineage onNarrow.heap.regions [] (course (rota 0x100000100008 0x100000200040) onNarrow) =
      lineage onArena.heap.regions [] (course (rota 0x100000093008 0x100000400040) onArena) := by
  have hptrs : (course (rota 0x100000093008 0x100000400040) onArena).map (·.1.ptr?) =
      [some 0x100000000008, some 0x100000093008, some 0x100000126008, some 0x100000400040, none,
        some 0x100000093010, none, some 0x100000126028] := by
    decide +kernel
  have hptrs' : (course (rota 0x100000100008 0x100000200040) onNarrow).map (·.1.ptr?) =
      [some 0x100000000008, some 0x100000100008, some 0x100000193008, some 0x100000200040, none,
        some 0x100000100010, none, some 0x100000193028] := by
    decide +kernel
  have hlineage : lineage onArena.heap.regions []
      (course (rota 0x100000093008 0x100000400040) onArena) = [some .carved, some .carved,
        some .carved, some .reserved, none, some (.reused 2), none, some .carved] := by
    decide +kernel
  have hf : (Heap.empty 9 1048576).Fresh :=
    .configured (rfl : Heap.ofConfig 9 ⟨1048576⟩ = .ok (Heap.empty 9 1048576))
  have hv : Valid (rota 0x100000093008 0x100000400040) onArena := by decide +kernel
  have hv' : Valid (rota 0x100000100008 0x100000200040) onNarrow := by decide +kernel
  have htunes := region_size_only_tunes (.plain 7) hf _ _ hv hv' (by decide +kernel)
    (by decide +kernel) (by decide +kernel) (by decide +kernel) (by decide +kernel)
  exact ⟨hptrs, hptrs', hlineage, htunes.1, htunes.2.1⟩

end World

end ChunkHeap
