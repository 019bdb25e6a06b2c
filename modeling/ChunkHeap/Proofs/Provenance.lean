import Mathlib
import ChunkHeap.Proofs.Outcomes
import ChunkHeap.Proofs.Peak
import ChunkHeap.Proofs.Placement

/-!
# Where the chunks of requests come from

As long as the platform refuses nothing, a request is declined for its numbers
alone, or it gets a chunk: a free one of its size, one cut off a region if there is
no free one, or one with a reservation of its own. Two heaps that have free chunks
of the same sizes get theirs in the same way, wherever their regions end.
-/

set_option autoImplicit false

namespace ChunkHeap

/-- The refusal of a request that no platform is asked about. -/
def Heap.declined? (size align : ℕ) : Option Refusal :=
  if !alignmentAllowed align then some (.invalidAlignment align)
  else if wordLimit ≤ needed size align then
    some (.sizeOverflow (reported size align).1 (reported size align).2)
  else none

theorem Provider.answers_reserve {π : Type} [Platform π] {p p' : Provider π} {len : ℕ}
    {base : Option ℕ} (h : p.reserve len = (base, p')) : p'.answers = p.answers ++ [base] := by
  rw [answers, calls_reserve h, List.filterMap_append]
  rfl

/-- A provider that has refused nothing. -/
def Provider.Generous {π : Type} (p : Provider π) : Prop := none ∉ p.answers

instance {π : Type} (p : Provider π) : Decidable p.Generous :=
  inferInstanceAs (Decidable (none ∉ p.answers))

theorem Provider.Generous.shorten {π : Type} {p p' : Provider π} (h : p'.Generous)
    (hp : p.answers <+: p'.answers) : p.Generous :=
  fun hmem => h (hp.subset hmem)

namespace Ideal

/-- A chunk that a heap gets for `total` bytes, with the heap after it. -/
inductive Gets (g : Ideal) (total : ℕ) : ℕ → Ideal → Prop
  | reused {c : SizeClass} {chunk : ℕ} {rest : List ℕ} (regime : Regime.ofSize total = .pooled c)
      (top : g.stack c (Word.ceil total c.unit) = chunk :: rest) :
      Gets g total chunk (g.withStack c (Word.ceil total c.unit) rest)
  | carved {c : SizeClass} {chunk : ℕ} {g' : Ideal} (regime : Regime.ofSize total = .pooled c)
      (empty : g.stack c (Word.ceil total c.unit) = [])
      (cut : g.source.Cut (Word.ceil total c.unit) g'.source ⟨chunk, Word.ceil total c.unit⟩)
      (stack : g'.stack = g.stack) (oversized : g'.oversized = g.oversized) :
      Gets g total chunk g'
  | reserved {base : ℕ} (regime : Regime.ofSize total = .oversized) :
      Gets g total (base + Chunk.oversizedPrefix) { g with oversized := g.oversized + 1 }

/-- There is room in the current region, or a new one is needed. -/
theorem room_cases (g : Ideal) (n : ℕ) :
    (∃ base bases, g.bases = base :: bases ∧ g.cursor + n ≤ g.regionSize ∧
      g.room n = some (base + g.cursor)) ∨
    ((∀ b ∈ g.bases.head?, g.regionSize < g.cursor + n) ∧ g.room n = none) := by
  unfold room
  cases hb : g.bases with
  | nil => exact Or.inr ⟨by simp, rfl⟩
  | cons base bases =>
    by_cases hf : g.cursor + n ≤ g.regionSize
    · exact Or.inl ⟨base, bases, rfl, hf, if_pos hf⟩
    · exact Or.inr ⟨by simpa using hf, if_neg hf⟩

variable {π : Type} [Platform π] {g : Ideal} {p : Provider π} {total size align : ℕ}

theorem draw_gets {c : SizeClass} (hc : Regime.ofSize total = .pooled c)
    (hn : (g.draw c (Word.ceil total c.unit) p).2.2.Generous) :
    ∃ chunk g' p', g.Gets total chunk g' ∧
      g.draw c (Word.ceil total c.unit) p = (.ok chunk, g', p') := by
  unfold draw at hn ⊢
  cases hs : g.stack c (Word.ceil total c.unit) with
  | cons chunk rest => exact ⟨_, _, _, .reused hc hs, rfl⟩
  | nil =>
    simp only [hs, cut] at hn ⊢
    rcases g.room_cases (Word.ceil total c.unit) with ⟨base, bases, hb, hf, hr⟩ | ⟨hfull, hr⟩
    · simp only [hr]
      refine ⟨_, _, _, ?_, rfl⟩
      exact .carved hc hs (.current hb hf) rfl rfl
    · simp only [hr] at hn ⊢
      rcases ha : p.reserve g.regionSize with ⟨_ | base, p'⟩
      · simp only [ha] at hn
        exact absurd (by simp [Provider.answers_reserve ha]) hn
      · refine ⟨_, _, _, ?_, rfl⟩
        exact .carved hc hs (.next hfull) rfl rfl

theorem take_gets (hfits : Regime.ofSize total = .oversized →
    total + Chunk.oversizedPrefix < wordLimit) (hn : (g.take total p).2.2.Generous) :
    ∃ chunk g' p', g.Gets total chunk g' ∧ g.take total p = (.ok chunk, g', p') := by
  unfold take at hn ⊢
  cases hc : Regime.ofSize total with
  | pooled c =>
    simp only [hc] at hn
    exact draw_gets hc hn
  | oversized =>
    simp only [hc, takeOversized, if_neg (Nat.not_le.mpr (hfits hc))] at hn ⊢
    rcases ha : p.reserve (total + Chunk.oversizedPrefix) with ⟨_ | base, p'⟩
    · simp only [ha] at hn
      exact absurd (by simp [Provider.answers_reserve ha]) hn
    · exact ⟨_, _, _, .reserved hc, rfl⟩

theorem alloc_overlong (ha : Heap.alignmentAllowed align = true)
    (hn : wordLimit ≤ Heap.needed size align) : g.alloc size align p =
      (.error (.sizeOverflow (Heap.reported size align).1 (Heap.reported size align).2), g, p) := by
  by_cases hlong : wordLimit ≤ Chunk.headerSize + size + align
  · simp [alloc, ha, hlong, Heap.reported]
  · have hover := Heap.oversized_of_needed hn hlong
    rw [Heap.needed_oversized hover] at hn
    simp [alloc, ha, hlong, take, hover, takeOversized, hn, Heap.reported]

/-- A request is declined or gets a chunk. -/
theorem alloc_gets (hn : (g.alloc size align p).2.2.Generous) :
    (∃ why, Heap.declined? size align = some why ∧
      g.alloc size align p = (.error why, g, p)) ∨
    (Heap.declined? size align = none ∧ ∃ chunk g' p',
      g.Gets (Chunk.headerSize + size + align) chunk g' ∧
      g.alloc size align p = (.ok (Chunk.dataAt chunk align), g'.lend size align chunk, p')) := by
  unfold Heap.declined?
  cases ha : Heap.alignmentAllowed align with
  | false => exact Or.inl ⟨_, rfl, by simp [alloc, ha]⟩
  | true =>
    by_cases hneeded : wordLimit ≤ Heap.needed size align
    · exact Or.inl ⟨_, by simp [hneeded], alloc_overlong ha hneeded⟩
    · right
      have hfits := Nat.lt_of_not_le hneeded
      have htotal := (Heap.le_needed size align).trans_lt hfits
      rw [g.alloc_eq p ha (Nat.not_le.mpr htotal)] at hn
      obtain ⟨chunk, g', p', hgets, htake⟩ := take_gets (p := p)
        (fun hc => Heap.needed_oversized hc ▸ hfits) hn
      exact ⟨by simp [hneeded], chunk, g', p', hgets, alloc_taken ha htotal htake⟩

/-- Heaps with related free chunks of the same sizes and as many oversized chunks. -/
structure Even (R : ℕ → ℕ → Prop) (g g' : Ideal) : Prop where
  oversized : g'.oversized = g.oversized
  stack : ∀ c n, List.Forall₂ R (g.stack c n) (g'.stack c n)

/-- The ways in which heaps that are even get their chunks. -/
inductive Got (R : ℕ → ℕ → Prop) (g g' k k' : Ideal) (total chunk chunk' : ℕ) : Prop
  | reused {c : SizeClass} (regime : Regime.ofSize total = .pooled c) (related : R chunk chunk')
      (source : k.source = g.source) (source' : k'.source = g'.source)
  | carved {c : SizeClass} (regime : Regime.ofSize total = .pooled c)
      (cut : g.source.Cut (Word.ceil total c.unit) k.source ⟨chunk, Word.ceil total c.unit⟩)
      (cut' : g'.source.Cut (Word.ceil total c.unit) k'.source ⟨chunk', Word.ceil total c.unit⟩)
  | reserved (regime : Regime.ofSize total = .oversized) (source : k.source = g.source)
      (source' : k'.source = g'.source)

namespace Even

variable {R R' : ℕ → ℕ → Prop} {g' k k' : Ideal} {chunk chunk' : ℕ}

theorem empty {id id' size size' : ℕ} : Even R (Ideal.empty id size) (Ideal.empty id' size') :=
  ⟨rfl, fun _ _ => .nil⟩

theorem mono (h : Even R g g') (hR : ∀ x y, R x y → R' x y) : Even R' g g' :=
  ⟨h.oversized, fun c n => (h.stack c n).imp hR⟩

theorem freeCount_eq (h : Even R g g') (c : SizeClass) : g'.freeCount c = g.freeCount c :=
  Finset.sum_congr rfl fun _ _ => (h.stack c _).length_eq.symm

theorem withLive (h : Even R g g') (live live' : List (ℕ × Place)) :
    Even R { g with live := live } { g' with live := live' } :=
  ⟨h.oversized, h.stack⟩

theorem withStack (h : Even R g g') (c : SizeClass) (n : ℕ) {chunks chunks' : List ℕ}
    (hc : List.Forall₂ R chunks chunks') :
    Even R (g.withStack c n chunks) (g'.withStack c n chunks') where
  oversized := h.oversized
  stack := by
    intro c' n'
    simp only [Ideal.withStack]
    split_ifs
    · exact hc
    · exact h.stack c' n'

theorem gets (h : Even R g g') (hx : g.Gets total chunk k) (hy : g'.Gets total chunk' k') :
    Even R k k' ∧ Got R g g' k k' total chunk chunk' := by
  cases hx with
  | @reused c chunk rest regime top =>
    cases hy with
    | @reused c' chunk' rest' regime' top' =>
      obtain rfl := Regime.pooled.inj (regime.symm.trans regime')
      have hstack := h.stack c (Word.ceil total c.unit)
      rw [top, top'] at hstack
      obtain ⟨hrelated, hrest⟩ := List.forall₂_cons.mp hstack
      exact ⟨h.withStack c _ hrest, .reused regime hrelated rfl rfl⟩
    | @carved c' chunk' k' regime' empty' =>
      obtain rfl := Regime.pooled.inj (regime.symm.trans regime')
      have hstack := h.stack c (Word.ceil total c.unit)
      rw [top, empty'] at hstack
      cases hstack
    | reserved regime' => cases regime.symm.trans regime'
  | @carved c chunk k regime empty cut stack oversized =>
    cases hy with
    | @reused c' chunk' rest' regime' top' =>
      obtain rfl := Regime.pooled.inj (regime.symm.trans regime')
      have hstack := h.stack c (Word.ceil total c.unit)
      rw [empty, top'] at hstack
      cases hstack
    | @carved c' chunk' k' regime' empty' cut' stack' oversized' =>
      obtain rfl := Regime.pooled.inj (regime.symm.trans regime')
      refine ⟨⟨?_, fun c n => ?_⟩, .carved regime cut cut'⟩
      · rw [oversized, oversized', h.oversized]
      · rw [stack, stack']
        exact h.stack c n
    | reserved regime' => cases regime.symm.trans regime'
  | reserved regime =>
    cases hy with
    | reused regime' => cases regime.symm.trans regime'
    | carved regime' => cases regime.symm.trans regime'
    | reserved regime' =>
      exact ⟨⟨congrArg (· + 1) h.oversized, h.stack⟩, .reserved regime rfl rfl⟩

/-- Chunks given back from corresponding places. -/
theorem giveBack {twin : ℕ → ℕ → Prop} {place place' : Place} (h : Even R g g')
    (hp : place.Like R twin place') {ρ : Type} [Platform ρ] (p : Provider π) (q : Provider ρ) :
    Even R (g.giveBack place p).1 (g'.giveBack place' q).1 := by
  cases hp with
  | @pooled c chunk chunk' padded hchunk =>
    exact h.withStack c padded (.cons hchunk (h.stack c padded))
  | reserved hbase => exact ⟨congrArg (· - 1) h.oversized, h.stack⟩

end Even

/-- Two heaps after a step of each: neither hands out a pointer, or both do. -/
inductive Strides (R : ℕ → ℕ → Prop) (g g' : Ideal) : Answer × Ideal → Answer × Ideal → Prop
  | still {answer answer' : Answer} {k k' : Ideal} (told : answer'.unplaced = answer.unplaced)
      (ptr : answer.ptr? = none) (ptr' : answer'.ptr? = none) (even : Even R k k')
      (source : k.source = g.source) (source' : k'.source = g'.source) :
      Strides R g g' (answer, k) (answer', k')
  | lent {answer answer' : Answer} {k k' : Ideal} {size align chunk chunk' : ℕ}
      (told : answer'.unplaced = answer.unplaced)
      (ptr : answer.ptr? = some (Chunk.dataAt chunk align))
      (ptr' : answer'.ptr? = some (Chunk.dataAt chunk' align)) (even : Even R k k')
      (got : Got R g g' k k' (Chunk.headerSize + size + align) chunk chunk') :
      Strides R g g' (answer, k.lend size align chunk) (answer', k'.lend size align chunk')

/-- The same request to two heaps that are even. -/
theorem Even.request {R : ℕ → ℕ → Prop} {g' : Ideal} (h : Even R g g') {ρ : Type} [Platform ρ]
    {q : Provider ρ} {a : Action} (ha : a.asks? = some (size, align))
    (hp : (g.step a p).2.2.Generous) (hq : (g'.step a q).2.2.Generous) :
    Strides R g g' ((g.step a p).1, (g.step a p).2.1) ((g'.step a q).1, (g'.step a q).2.1) := by
  rw [(step_request ha).1] at hp hq
  rcases alloc_gets hp with ⟨why, hwhy, hx⟩ | ⟨hnone, chunk, k, p', hgets, hx⟩
  · rcases alloc_gets hq with ⟨why', hwhy', hy⟩ | ⟨hnone', -⟩
    · obtain rfl : why = why' := Option.some.inj (hwhy.symm.trans hwhy')
      rcases Action.eq_of_asks ha with rfl | ⟨layout, zeroed, rfl, rfl, rfl⟩
      · simp only [step, hx, hy]
        exact .still rfl rfl rfl h rfl rfl
      · simp only [step, hx, hy]
        exact .still rfl rfl rfl h rfl rfl
    · cases hwhy.symm.trans hnone'
  · rcases alloc_gets hq with ⟨why', hwhy', -⟩ | ⟨-, chunk', k', q', hgets', hy⟩
    · cases hwhy'.symm.trans hnone
    · obtain ⟨heven, hgot⟩ := h.gets hgets hgets'
      rcases Action.eq_of_asks ha with rfl | ⟨layout, zeroed, rfl, rfl, rfl⟩
      · simp only [step, hx, hy]
        exact .lent rfl rfl rfl heven hgot
      · simp only [step, hx, hy]
        exact .lent rfl rfl rfl heven hgot

end Ideal

end ChunkHeap
