import Mathlib
import ChunkHeap.Proofs.Orders

/-!
# Ideal heaps that differ in addresses

Two ideal heaps are alike if one is the other with its regions and reservations
somewhere else. A step looks at no address, so two heaps that are alike do alike
as long as they are granted ranges in the same calls.
-/

set_option autoImplicit false

namespace ChunkHeap

def Place.regime : Place → Regime
  | .pooled c _ _ => .pooled c
  | .reserved _ _ => .oversized

theorem Place.regime_of (total chunk : ℕ) :
    (Place.of total chunk).regime = Regime.ofSize total := by
  unfold Place.of
  cases Regime.ofSize total <;> rfl

/-- Places of chunks that correspond, given that of addresses in regions and that
of reservations. -/
inductive Place.Like (near twin : ℕ → ℕ → Prop) : Place → Place → Prop
  | pooled {c : SizeClass} {chunk chunk' padded : ℕ} (h : near chunk chunk') :
      Like near twin (.pooled c chunk padded) (.pooled c chunk' padded)
  | reserved {base base' len : ℕ} (h : twin base base') :
      Like near twin (.reserved base len) (.reserved base' len)

namespace Place.Like

variable {near near' twin : ℕ → ℕ → Prop} {p p' : Place}

theorem mono (h : p.Like near twin p') (hn : ∀ x y, near x y → near' x y) :
    p.Like near' twin p' := by
  cases h with
  | pooled h => exact .pooled (hn _ _ h)
  | reserved h => exact .reserved h

theorem word_eq (h : p.Like near twin p') : p'.word = p.word := by
  cases h <;> rfl

end Place.Like

namespace Ideal

variable {twin : ℕ → ℕ → Prop} {g g' k k' : Ideal}

/-- Addresses at the same offset of regions of the same ordinal. -/
def Near (g g' : Ideal) (x y : ℕ) : Prop :=
  ∃ bases ∈ g.bases.zip g'.bases, ∃ offset < g.regionSize,
    x = bases.1 + offset ∧ y = bases.2 + offset

theorem Near.ordinal {x y : ℕ} (h : Near g g' x y)
    (hlen : g'.bases.length = g.bases.length) : ∃ ordinal base base' offset : ℕ,
      g.bases.reverse[ordinal]? = some base ∧ g'.bases.reverse[ordinal]? = some base' ∧
      offset < g.regionSize ∧ x = base + offset ∧ y = base' + offset := by
  obtain ⟨⟨base, base'⟩, hmem, offset, hoffset, hx, hy⟩ := h
  obtain ⟨i, hi⟩ := List.mem_iff_getElem?.mp hmem
  obtain ⟨hb, hb'⟩ : g.bases[i]? = some base ∧ g'.bases[i]? = some base' :=
    List.getElem?_zip_eq_some.mp hi
  have hlt := (List.getElem?_eq_some_iff.mp hb).1
  -- bases are listed from the newest to the oldest
  refine ⟨g.bases.length - 1 - i, base, base', offset, ?_, ?_, hoffset, hx, hy⟩
  · rw [List.getElem?_reverse (by omega), ← hb]
    congr 1
    omega
  · rw [List.getElem?_reverse (by omega), hlen, ← hb']
    congr 1
    omega

structure Like (twin : ℕ → ℕ → Prop) (g g' : Ideal) : Prop where
  regionSize : g'.regionSize = g.regionSize
  cursor : g'.cursor = g.cursor
  oversized : g'.oversized = g.oversized
  bases : List.Forall₂ twin g.bases g'.bases
  stack : ∀ c n, List.Forall₂ (Near g g') (g.stack c n) (g'.stack c n)

namespace Like

theorem empty {id id' size size' : ℕ} (h : size' = size) :
    Like twin (Ideal.empty id size) (Ideal.empty id' size') where
  regionSize := h
  cursor := rfl
  oversized := rfl
  bases := .nil
  stack := fun _ _ => .nil

theorem near_eq (h : Like twin g g') (ht : ∀ x y, twin x y → y = x) {x y : ℕ}
    (hn : Near g g' x y) : y = x := by
  obtain ⟨bases, hmem, offset, -, rfl, rfl⟩ := hn
  rw [ht _ _ ((List.forall₂_iff_zip.mp h.bases).2 hmem)]

theorem stats_eq (h : Like twin g g') : g'.stats = g.stats := by
  have hcount : ∀ c, g'.freeCount c = g.freeCount c := fun c =>
    Finset.sum_congr rfl fun i _ => (h.stack c _).length_eq.symm
  simp only [stats, h.regionSize, h.cursor, h.oversized, h.bases.length_eq, hcount]

theorem withStack (h : Like twin g g') (c : SizeClass) (n : ℕ) {chunks chunks' : List ℕ}
    (hc : List.Forall₂ (Near g g') chunks chunks') :
    Like twin (g.withStack c n chunks) (g'.withStack c n chunks') where
  regionSize := h.regionSize
  cursor := h.cursor
  oversized := h.oversized
  bases := h.bases
  stack := by
    intro c' n'
    simp only [Ideal.withStack]
    split_ifs
    · exact hc
    · exact h.stack c' n'

theorem withLive (h : Like twin g g') (live live' : List (ℕ × Place)) :
    Like twin { g with live := live } { g' with live := live' } :=
  ⟨h.regionSize, h.cursor, h.oversized, h.bases, h.stack⟩

/-- The room left in the current regions is at corresponding addresses. -/
theorem room_cases (h : Like twin g g') {n : ℕ} (hn : 0 < n) :
    (g.room n = none ∧ g'.room n = none) ∨
    ∃ x y, g.room n = some x ∧ g'.room n = some y ∧ Near g g' x y := by
  have hbases := h.bases
  unfold room
  cases hg : g.bases with
  | nil =>
    rw [hg, List.forall₂_nil_left_iff] at hbases
    simp [hbases]
  | cons base rest =>
    rw [hg, List.forall₂_cons_left_iff] at hbases
    obtain ⟨base', rest', -, -, hg'⟩ := hbases
    simp only [hg', h.cursor, h.regionSize]
    by_cases hfits : g.cursor + n ≤ g.regionSize
    · rw [if_pos hfits, if_pos hfits]
      refine Or.inr ⟨_, _, rfl, rfl, (base, base'), ?_, g.cursor, by omega, rfl, rfl⟩
      simp [hg, hg']
    · rw [if_neg hfits, if_neg hfits]
      exact Or.inl ⟨rfl, rfl⟩

theorem advance (h : Like twin g g') (cursor : ℕ) :
    Like twin { g with cursor := cursor } { g' with cursor := cursor } :=
  ⟨h.regionSize, rfl, h.oversized, h.bases, h.stack⟩

theorem enter (h : Like twin g g') {base base' : ℕ} (hb : twin base base') (cursor : ℕ) :
    Like twin { g with bases := base :: g.bases, cursor := cursor }
      { g' with bases := base' :: g'.bases, cursor := cursor } where
  regionSize := h.regionSize
  cursor := rfl
  oversized := h.oversized
  bases := .cons hb h.bases
  stack := by
    intro c n
    refine (h.stack c n).imp ?_
    rintro x y ⟨bases, hmem, hoffset⟩
    exact ⟨bases, List.mem_cons_of_mem _ hmem, hoffset⟩

theorem count (h : Like twin g g') (n : ℕ) :
    Like twin { g with oversized := n } { g' with oversized := n } :=
  ⟨h.regionSize, h.cursor, rfl, h.bases, h.stack⟩

end Like

/-- Two ends of a request. The new chunks correspond, and if corresponding ranges
are the same, so are they. -/
inductive Matched (twin : ℕ → ℕ → Prop) (g g' : Ideal) (total : ℕ) :
    Except Refusal ℕ × Ideal × Provider Stub → Except Refusal ℕ × Ideal × Provider Stub → Prop
  | refused {why : Refusal} {k k' : Ideal} {p q : Provider Stub} (like : Like twin k k')
      (near : ∀ x y, Near g g' x y → Near k k' x y)
      (calls : q.calls.map Note.unplaced = p.calls.map Note.unplaced) :
      Matched twin g g' total (.error why, k, p) (.error why, k', q)
  | taken {chunk chunk' : ℕ} {k k' : Ideal} {p q : Provider Stub} (like : Like twin k k')
      (near : ∀ x y, Near g g' x y → Near k k' x y)
      (calls : q.calls.map Note.unplaced = p.calls.map Note.unplaced)
      (place : (Place.of total chunk).Like (Near k k') twin (Place.of total chunk'))
      (same : (∀ x y, twin x y → y = x) → chunk' = chunk)
      (live : k.live = g.live) (live' : k'.live = g'.live)
      (asked : ∀ base len, Place.of total chunk = .reserved base len →
        p.calls = [.reserved len (some base)])
      (asked' : ∀ base len, Place.of total chunk' = .reserved base len →
        q.calls = [.reserved len (some base)]) :
      Matched twin g g' total (.ok chunk, k, p) (.ok chunk', k', q)

variable {b b' : Option ℕ} {total : ℕ} {c : SizeClass}

theorem Like.matched_pooled {chunk chunk' : ℕ} {p q : Provider Stub} (h : Like twin k k')
    (hc : Regime.ofSize total = .pooled c) (near : ∀ x y, Near g g' x y → Near k k' x y)
    (calls : q.calls.map Note.unplaced = p.calls.map Note.unplaced)
    (hchunk : Near k k' chunk chunk') (live : k.live = g.live) (live' : k'.live = g'.live) :
    Matched twin g g' total (.ok chunk, k, p) (.ok chunk', k', q) := by
  have hplace : ∀ x, Place.of total x = .pooled c x (Word.ceil total c.unit) := by
    intro x
    rw [Place.of, hc]
  refine .taken h near calls ?_ (fun ht => h.near_eq ht hchunk) live live' ?_ ?_
  · rw [hplace, hplace]
    exact .pooled hchunk
  · intro base len hreserved
    rw [hplace] at hreserved
    cases hreserved
  · intro base len hreserved
    rw [hplace] at hreserved
    cases hreserved

theorem Like.cut (h : Like twin g g') (hb : Option.Rel twin b b')
    (hc : Regime.ofSize total = .pooled c) (h0 : 0 < total)
    (hfit : Word.ceil total c.unit ≤ g.regionSize) :
    Matched twin g g' total (g.cut (Word.ceil total c.unit) (.stub b))
      (g'.cut (Word.ceil total c.unit) (.stub b')) := by
  have hpos : 0 < Word.ceil total c.unit := h0.trans_le (Word.le_ceil _ c.unit_pos)
  unfold Ideal.cut
  rcases h.room_cases hpos with ⟨hr, hr'⟩ | ⟨x, y, hr, hr', hxy⟩
  · simp only [hr, hr', Provider.stub_reserve]
    cases hb with
    | none =>
      rw [h.regionSize]
      exact .refused h (fun _ _ hn => hn) rfl
    | @some base base' hbase =>
      have hlike := h.enter hbase (Word.ceil total c.unit)
      refine hlike.matched_pooled hc ?_ ?_ ?_ rfl rfl
      · rintro x y ⟨bases, hmem, hoffset⟩
        exact ⟨bases, List.mem_cons_of_mem _ hmem, hoffset⟩
      · simp [Note.unplaced, h.regionSize]
      · exact ⟨(base, base'), List.mem_cons_self, 0, hpos.trans_le hfit, rfl, rfl⟩
  · simp only [hr, hr', h.cursor]
    exact (h.advance _).matched_pooled hc (fun _ _ hn => hn) rfl hxy rfl rfl

theorem Like.draw (h : Like twin g g') (hb : Option.Rel twin b b')
    (hc : Regime.ofSize total = .pooled c) (h0 : 0 < total)
    (hfit : Word.ceil total c.unit ≤ g.regionSize) :
    Matched twin g g' total (g.draw c (Word.ceil total c.unit) (.stub b))
      (g'.draw c (Word.ceil total c.unit) (.stub b')) := by
  have hstack := h.stack c (Word.ceil total c.unit)
  unfold Ideal.draw
  generalize hg : g.stack c (Word.ceil total c.unit) = chunks at hstack
  generalize hg' : g'.stack c (Word.ceil total c.unit) = chunks' at hstack
  cases hstack with
  | nil => exact h.cut hb hc h0 hfit
  | cons hchunk hrest =>
    exact (h.withStack c _ hrest).matched_pooled hc (fun _ _ hn => hn) rfl hchunk rfl rfl

theorem Like.takeOversized (h : Like twin g g') (hb : Option.Rel twin b b')
    (hc : Regime.ofSize total = .oversized) :
    Matched twin g g' total (g.takeOversized total (.stub b))
      (g'.takeOversized total (.stub b')) := by
  simp only [Ideal.takeOversized]
  split_ifs
  · exact .refused h (fun _ _ hn => hn) rfl
  · simp only [Provider.stub_reserve]
    cases hb with
    | none => exact .refused h (fun _ _ hn => hn) rfl
    | some hbase =>
      rw [h.oversized]
      refine .taken (h.count _) (fun _ _ hn => hn) rfl ?_ (fun ht => by rw [ht _ _ hbase]) rfl rfl
        ?_ ?_
      · rw [Place.of_oversized hc, Place.of_oversized hc]
        exact .reserved hbase
      · intro base len hreserved
        rw [Place.of_oversized hc] at hreserved
        obtain ⟨rfl, rfl⟩ := Place.reserved.inj hreserved
        rfl
      · intro base len hreserved
        rw [Place.of_oversized hc] at hreserved
        obtain ⟨rfl, rfl⟩ := Place.reserved.inj hreserved
        rfl

theorem Like.take (h : Like twin g g') (hb : Option.Rel twin b b') (h0 : 0 < total)
    (hroomy : SizeClass.big.maxSize ≤ g.regionSize) :
    Matched twin g g' total (g.take total (.stub b)) (g'.take total (.stub b')) := by
  unfold Ideal.take
  cases hc : Regime.ofSize total with
  | pooled c =>
    have hle := (Regime.ceil_le_maxSize h0 hc).trans c.maxSize_le
    exact h.draw hb hc h0 (hle.trans hroomy)
  | oversized => exact h.takeOversized hb hc

/-- Two pointers lent by steps that do alike. -/
structure Handed (twin : ℕ → ℕ → Prop) (g g' k k' : Ideal) (notes notes' : List Note)
    (ptr ptr' : ℕ) (place place' : Place) : Prop where
  live : k.live = (ptr, place) :: g.live
  live' : k'.live = (ptr', place') :: g'.live
  matched : place.Like (Near k k') twin place'
  same : (∀ x y, twin x y → y = x) → ptr' = ptr
  asked : ∀ base len, place = .reserved base len → notes = [.reserved len (some base)]
  asked' : ∀ base len, place' = .reserved base len → notes' = [.reserved len (some base)]

/-- Steps that do alike, but for addresses. -/
structure Parallel (twin : ℕ → ℕ → Prop) (g g' : Ideal) (x y : Answer × Ideal × List Note) :
    Prop where
  answer : y.1.unplaced = x.1.unplaced
  like : Like twin x.2.1 y.2.1
  near : ∀ u w, Near g g' u w → Near x.2.1 y.2.1 u w
  notes : y.2.2.map Note.unplaced = x.2.2.map Note.unplaced
  handed : ∀ ptr, x.1.ptr? = some ptr → ∃ ptr' place place', y.1.ptr? = some ptr' ∧
    Handed twin g g' x.2.1 y.2.1 x.2.2 y.2.2 ptr ptr' place place'

theorem Parallel.ptr?_none {x y : Answer × Ideal × List Note} (h : Parallel twin g g' x y)
    (hx : x.1.ptr? = none) : y.1.ptr? = none := by
  have hanswer := congrArg Answer.ptr? h.answer
  rw [Answer.ptr?_unplaced, Answer.ptr?_unplaced, hx] at hanswer
  exact Option.map_eq_none_iff.mp hanswer

theorem Like.parallel_unasked (h : Like twin g g') {answer answer' : Answer}
    (ha : answer'.unplaced = answer.unplaced) (hp : answer.ptr? = none) :
    Parallel twin g g' (answer, g, []) (answer', g', []) where
  answer := ha
  like := h
  near := fun _ _ hn => hn
  notes := rfl
  handed := by
    intro ptr hptr
    rw [hp] at hptr
    cases hptr

/-- Allocations that do alike, told as a pointer or as a block. -/
inductive Lends (twin : ℕ → ℕ → Prop) (g g' : Ideal) :
    Except Refusal ℕ × Ideal × Provider Stub → Except Refusal ℕ × Ideal × Provider Stub → Prop
  | refused {why : Refusal} {k k' : Ideal} {p q : Provider Stub} (like : Like twin k k')
      (near : ∀ x y, Near g g' x y → Near k k' x y)
      (calls : q.calls.map Note.unplaced = p.calls.map Note.unplaced) :
      Lends twin g g' (.error why, k, p) (.error why, k', q)
  | lent {ptr ptr' : ℕ} {place place' : Place} {k k' : Ideal} {p q : Provider Stub}
      (like : Like twin k k') (near : ∀ x y, Near g g' x y → Near k k' x y)
      (calls : q.calls.map Note.unplaced = p.calls.map Note.unplaced)
      (handed : Handed twin g g' k k' p.calls q.calls ptr ptr' place place') :
      Lends twin g g' (.ok ptr, k, p) (.ok ptr', k', q)

theorem Like.alloc (h : Like twin g g') (hb : Option.Rel twin b b')
    (hroomy : SizeClass.big.maxSize ≤ g.regionSize) (size align : ℕ) :
    Lends twin g g' (g.alloc size align (.stub b)) (g'.alloc size align (.stub b')) := by
  by_cases ha : Heap.alignmentAllowed align = true
  · by_cases hfits : wordLimit ≤ Chunk.headerSize + size + align
    · simp only [Ideal.alloc, ha, if_pos hfits]
      exact .refused h (fun _ _ hn => hn) rfl
    · have hm := h.take hb (Chunk.total_pos size align) hroomy
      rw [g.alloc_eq _ ha hfits, g'.alloc_eq _ ha hfits]
      generalize g.take (Chunk.headerSize + size + align) (.stub b) = x at hm ⊢
      generalize g'.take (Chunk.headerSize + size + align) (.stub b') = y at hm ⊢
      cases hm with
      | refused like near calls => exact .refused like near calls
      | taken like near calls place same live live' asked asked' =>
        refine .lent (like.withLive _ _) near calls ⟨?_, ?_, place, ?_, asked, asked'⟩
        · rw [← live]
          rfl
        · rw [← live']
          rfl
        · exact fun ht => by rw [same ht]
  · simp only [Ideal.alloc, ha]
    exact .refused h (fun _ _ hn => hn) rfl

/-- The same request to two heaps that are alike. -/
theorem Like.request (h : Like twin g g') (hb : Option.Rel twin b b')
    (hroomy : SizeClass.big.maxSize ≤ g.regionSize) {a : Action} {size align : ℕ}
    (ha : a.asks? = some (size, align)) : Parallel twin g g' (g.react a b) (g'.react a b') := by
  have hl := h.alloc hb hroomy size align
  rcases Action.eq_of_asks ha with rfl | ⟨layout, zeroed, rfl, rfl, rfl⟩
  · simp only [react, step]
    generalize g.alloc size align (.stub b) = x at hl ⊢
    generalize g'.alloc size align (.stub b') = y at hl ⊢
    cases hl with
    | refused like near calls => exact ⟨rfl, like, near, calls, fun ptr hptr => by cases hptr⟩
    | lent like near calls handed =>
      refine ⟨rfl, like, near, calls, fun ptr hptr => ?_⟩
      obtain rfl := Option.some.inj hptr
      exact ⟨_, _, _, rfl, handed⟩
  · simp only [react, step]
    generalize g.alloc layout.size layout.align (.stub b) = x at hl ⊢
    generalize g'.alloc layout.size layout.align (.stub b') = y at hl ⊢
    cases hl with
    | refused like near calls => exact ⟨rfl, like, near, calls, fun ptr hptr => by cases hptr⟩
    | lent like near calls handed =>
      refine ⟨rfl, like, near, calls, fun ptr hptr => ?_⟩
      obtain rfl := Option.some.inj hptr
      exact ⟨_, _, _, rfl, handed⟩

/-- Pointers given back at corresponding places. -/
theorem Like.free (h : Like twin g g') {ptr ptr' : ℕ} {place place' : Place}
    (hp : place.Like (Near g g') twin place') (hl : g.live.lookup ptr = some place)
    (hl' : g'.live.lookup ptr' = some place') :
    Parallel twin g g'
      (.returned (.ok ()), (g.free ptr (.stub b)).1, (g.free ptr (.stub b)).2.calls)
      (.returned (.ok ()), (g'.free ptr' (.stub b')).1, (g'.free ptr' (.stub b')).2.calls) := by
  simp only [Ideal.free, hl, hl']
  cases hp with
  | @pooled c chunk chunk' padded hchunk =>
    refine ⟨rfl, ?_, fun _ _ hn => hn, rfl, fun ptr hptr => by cases hptr⟩
    exact (h.withLive _ _).withStack c padded (.cons hchunk (h.stack c padded))
  | reserved hbase =>
    refine ⟨rfl, ?_, fun _ _ hn => hn, rfl, fun ptr hptr => by cases hptr⟩
    have hlike := (h.withLive (g.forget ptr).live (g'.forget ptr').live).count (g.oversized - 1)
    simp only [Ideal.giveBack, Ideal.forget, h.oversized] at hlike ⊢
    exact hlike

/-- The same action on two heaps, where pointers and blocks stand for those at
corresponding places. -/
inductive Corresponds (twin : ℕ → ℕ → Prop) (g g' : Ideal) : Action → Action → Prop
  | request {a : Action} {size align : ℕ} (asks : a.asks? = some (size, align)) :
      Corresponds twin g g' a a
  | free {ptr ptr' : ℕ} {place place' : Place} (found : g.live.lookup ptr = some place)
      (found' : g'.live.lookup ptr' = some place') (matched : place.Like (Near g g') twin place') :
      Corresponds twin g g' (.free ptr) (.free ptr')
  | deallocate {block block' : Block} {place place' : Place}
      (found : g.live.lookup block.ptr = some place)
      (found' : g'.live.lookup block'.ptr = some place')
      (matched : place.Like (Near g g') twin place') :
      Corresponds twin g g' (.deallocate block) (.deallocate block')
  | paddedSize {block block' : Block} {place place' : Place}
      (found : g.live.lookup block.ptr = some place)
      (found' : g'.live.lookup block'.ptr = some place')
      (matched : place.Like (Near g g') twin place') :
      Corresponds twin g g' (.paddedSize block) (.paddedSize block')

theorem Like.react (h : Like twin g g') (hb : Option.Rel twin b b')
    (hroomy : SizeClass.big.maxSize ≤ g.regionSize) {a a' : Action}
    (ha : Corresponds twin g g' a a') : Parallel twin g g' (g.react a b) (g'.react a' b') := by
  cases ha with
  | request asks => exact h.request hb hroomy asks
  | free found found' matched => exact h.free matched found found'
  | deallocate found found' matched => exact h.free matched found found'
  | paddedSize found found' matched =>
    simp only [Ideal.react, step, found, found', Option.map_some, Option.getD_some,
      matched.word_eq]
    exact h.parallel_unasked rfl rfl

end Ideal

end ChunkHeap
