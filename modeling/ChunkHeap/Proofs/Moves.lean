import Mathlib
import ChunkHeap.Proofs.Recovery

/-!
# What a step can do

A step of the ideal heap is one of eight moves. Each says where the chunk of a
new pointer comes from or where the chunk of an old one goes, and which call it
takes. Laws of runs are proved for one move at a time.
-/

set_option autoImplicit false

namespace ChunkHeap

/-- An action asks for memory that fits into a chunk of a class. -/
structure Action.Pools (a : Action) (size align : ℕ) (c : SizeClass) : Prop where
  asks : a.asks? = some (size, align)
  regime : Regime.ofSize (Chunk.headerSize + size + align) = .pooled c

/-- The size of the chunk that a class has for a request. -/
def SizeClass.padded (c : SizeClass) (size align : ℕ) : ℕ :=
  Word.ceil (Chunk.headerSize + size + align) c.unit

theorem SizeClass.padded_pos (c : SizeClass) (size align : ℕ) : 0 < c.padded size align :=
  (Chunk.total_pos size align).trans_le (Word.le_ceil _ c.unit_pos)

namespace Action.Pools

variable {a : Action} {size align : ℕ} {c : SizeClass}

theorem padded_le (h : a.Pools size align c) : c.padded size align ≤ SizeClass.big.maxSize :=
  (Regime.ceil_le_maxSize (Chunk.total_pos size align) h.regime).trans c.maxSize_le

theorem ofSize_padded (h : a.Pools size align c) :
    Regime.ofSize (c.padded size align) = .pooled c :=
  Regime.ofSize_ceil (Chunk.total_pos size align) h.regime

end Action.Pools

namespace Ideal

/-- The pointer to the data of a chunk becomes live. -/
def lend (g : Ideal) (size align chunk : ℕ) : Ideal :=
  { g with live := (Chunk.dataAt chunk align,
      Place.of (Chunk.headerSize + size + align) chunk) :: g.live }

variable {π : Type} [Platform π]

inductive Moves (g : Ideal) (a : Action) (p : Provider π) : Ideal × Provider π → Prop
  | idle : Moves g a p (g, p)
  | refused {len : ℕ} {p' : Provider π} (asked : p.reserve len = (none, p')) :
      Moves g a p (g, p')
  | reused {size align chunk : ℕ} {c : SizeClass} {rest : List ℕ} (pools : a.Pools size align c)
      (top : g.stack c (c.padded size align) = chunk :: rest) :
      Moves g a p ((g.withStack c (c.padded size align) rest).lend size align chunk, p)
  | cut {size align base : ℕ} {c : SizeClass} {bases : List ℕ} (pools : a.Pools size align c)
      (empty : g.stack c (c.padded size align) = []) (current : g.bases = base :: bases)
      (fits : g.cursor + c.padded size align ≤ g.regionSize) :
      Moves g a p ({ g with cursor := g.cursor + c.padded size align }.lend size align
        (base + g.cursor), p)
  | entered {size align base : ℕ} {c : SizeClass} {p' : Provider π}
      (pools : a.Pools size align c) (empty : g.stack c (c.padded size align) = [])
      (full : ∀ b ∈ g.bases.head?, g.regionSize < g.cursor + c.padded size align)
      (asked : p.reserve g.regionSize = (some base, p')) :
      Moves g a p ({ g with bases := base :: g.bases, cursor := c.padded size align }.lend size
        align base, p')
  | reserved {size align base : ℕ} {p' : Provider π} (asks : a.asks? = some (size, align))
      (regime : Regime.ofSize (Chunk.headerSize + size + align) = .oversized)
      (asked : p.reserve (Chunk.headerSize + size + align + Chunk.oversizedPrefix) =
        (some base, p')) :
      Moves g a p ({ g with oversized := g.oversized + 1 }.lend size align
        (base + Chunk.oversizedPrefix), p')
  | shelved {ptr chunk padded : ℕ} {c : SizeClass} (returns : a.returns? = some ptr)
      (found : g.live.lookup ptr = some (.pooled c chunk padded)) :
      Moves g a p ((g.forget ptr).withStack c padded (chunk :: g.stack c padded), p)
  | released {ptr base len : ℕ} (returns : a.returns? = some ptr)
      (found : g.live.lookup ptr = some (.reserved base len)) :
      Moves g a p ({ g.forget ptr with oversized := g.oversized - 1 }, p.release base len)

variable {g : Ideal} {a : Action} {p : Provider π} {size align : ℕ} {c : SizeClass}

theorem draw_moves (hp : a.Pools size align c) :
    (∃ why p', g.draw c (c.padded size align) p = (.error why, g, p') ∧
      Moves g a p (g, p')) ∨
    (∃ chunk g' p', g.draw c (c.padded size align) p = (.ok chunk, g', p') ∧
      Moves g a p (g'.lend size align chunk, p')) := by
  unfold draw
  split
  · next chunk rest hs => exact Or.inr ⟨_, _, _, rfl, .reused hp hs⟩
  · next hs =>
    unfold cut
    cases hr : g.room (c.padded size align) with
    | some chunk =>
      obtain ⟨base, bases, hb, hf, rfl⟩ : ∃ base bases, g.bases = base :: bases ∧
          g.cursor + c.padded size align ≤ g.regionSize ∧ base + g.cursor = chunk := by
        unfold room at hr
        split at hr
        · simp at hr
        · next base bases hb =>
          split_ifs at hr with hf
          exact ⟨base, bases, hb, hf, Option.some.inj hr⟩
      exact Or.inr ⟨_, _, _, rfl, .cut hp hs hb hf⟩
    | none =>
      have hfull : ∀ b ∈ g.bases.head?, g.regionSize < g.cursor + c.padded size align := by
        intro b hb
        unfold room at hr
        split at hr
        · next hnil => simp [hnil] at hb
        · split_ifs at hr with hf
          exact Nat.lt_of_not_le hf
      rcases ha : p.reserve g.regionSize with ⟨_ | base, p'⟩
      · exact Or.inl ⟨_, _, rfl, .refused ha⟩
      · exact Or.inr ⟨_, _, _, rfl, .entered hp hs hfull ha⟩

theorem take_moves (ha : a.asks? = some (size, align)) :
    (∃ why p', g.take (Chunk.headerSize + size + align) p = (.error why, g, p') ∧
      Moves g a p (g, p')) ∨
    (∃ chunk g' p', g.take (Chunk.headerSize + size + align) p = (.ok chunk, g', p') ∧
      Moves g a p (g'.lend size align chunk, p')) := by
  unfold take
  cases hc : Regime.ofSize (Chunk.headerSize + size + align) with
  | pooled c => exact draw_moves ⟨ha, hc⟩
  | oversized =>
    simp only [takeOversized]
    split_ifs
    · exact Or.inl ⟨_, _, rfl, .idle⟩
    · rcases hr : p.reserve (Chunk.headerSize + size + align + Chunk.oversizedPrefix)
        with ⟨_ | base, p'⟩
      · exact Or.inl ⟨_, _, rfl, .refused hr⟩
      · exact Or.inr ⟨_, _, _, rfl, .reserved ha hc hr⟩

theorem alloc_moves (ha : a.asks? = some (size, align)) : Moves g a p (g.alloc size align p).2 := by
  unfold alloc
  simp only
  split_ifs
  · exact .idle
  · exact .idle
  · rcases take_moves (g := g) (p := p) ha with ⟨why, p', ht, hm⟩ | ⟨chunk, g', p', ht, hm⟩
    · rw [ht]
      exact hm
    · rw [ht]
      exact hm

theorem free_moves {ptr : ℕ} (ha : a.returns? = some ptr) : Moves g a p (g.free ptr p) := by
  unfold free
  split
  · exact .idle
  · next place hl =>
    cases place with
    | pooled c chunk padded => exact .shelved ha hl
    | reserved base len => exact .released ha hl

/-- A step of the ideal heap is a move. -/
theorem step_moves (g : Ideal) (a : Action) (p : Provider π) : Moves g a p (g.step a p).2 := by
  cases a with
  | alloc size align => exact alloc_moves rfl
  | allocate layout zeroed => exact alloc_moves rfl
  | free ptr => exact free_moves rfl
  | deallocate block => exact free_moves rfl
  | paddedSize block => exact .idle
  | write addr bytes => exact .idle

omit [Platform π] in
theorem mem_live {ptr : ℕ} {place : Place} (h : g.live.lookup ptr = some place) :
    (ptr, place) ∈ g.live := by
  obtain ⟨before, after, hsplit, -⟩ := List.lookup_eq_some_iff.mp h
  simp [hsplit]

theorem Moves.id_eq {g' : Ideal} {p' : Provider π} (hm : Moves g a p (g', p')) : g'.id = g.id := by
  cases hm <;> rfl

end Ideal

namespace World

variable {π : Type} {s : World π} {g : Ideal} [Platform π]

theorem cuts_step (s : World π) (a : Action) :
    (s.step a).2.cuts = s.heap.regions.grown (s.step a).2.heap.regions ++ s.cuts := by
  cases a with
  | alloc size align =>
    unfold step
    simp only
    split <;> rfl
  | allocate layout zeroed =>
    simp only [step]
    split <;> rfl
  | free ptr => rfl
  | deallocate block => rfl
  | paddedSize block => exact (congrArg (· ++ s.cuts) s.heap.regions.grown_self).symm
  | write addr bytes => exact (congrArg (· ++ s.cuts) s.heap.regions.grown_self).symm

/-- A step of a world is a move of the ideal heap that it mirrors. -/
theorem Mirrors.step_moves (hs : s.Mirrors g) {a : Action} (ha : s.Ready a)
    (hh : (s.step a).2.machine.Honoured) : ∃ g', (s.step a).2.Mirrors g' ∧
      g.Moves a s.machine.provider (g', (s.step a).2.machine.provider) := by
  have hf := hs.step_follows ha hh
  have hm := g.step_moves a s.machine.provider
  refine ⟨_, hf.mirrors, ?_⟩
  rwa [hf.provider]

end World

end ChunkHeap
