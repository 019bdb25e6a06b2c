import Mathlib
import ChunkHeap.Proofs.Bookkeeping
import ChunkHeap.Proofs.Preservation

/-!
# Blocks of zeros

A block of zeros is the block that would have been laid out without them, with
zeros in its data. These reach no header word, no free chunk and no other loan,
so the heap never tells the one from the other.
-/

set_option autoImplicit false

namespace ChunkHeap

/-- All words that are written for a loan stand in front of its data. -/
theorem Loan.Sound.header_before {l : Loan} {id : ℕ} {t : Span} (h : l.Sound id)
    (ht : t ∈ l.header) : t.stop ≤ l.ptr := by
  have hchunk := h.chunk
  have hafter := h.after_chunk
  rcases List.mem_cons.mp ht with rfl | ht
  · simp only [Chunk.headerSize, Span.stop] at *
    omega
  · rcases l.place_cases with ⟨c, i, -, hp⟩ | hp
    all_goals
      rw [hp] at ht
      simp only [Place.header, List.mem_cons, List.not_mem_nil, or_false] at ht
      simp only [Chunk.headerSize, Chunk.oversizedPrefix, Span.stop] at *
    · subst ht
      simp only
      omega
    · rcases ht with rfl | rfl
      · simp only
        omega
      · simp only
        omega

namespace World

variable {π : Type} {s t : World π} {g : Ideal}

/-- The world with zeros in the data of a block. -/
def wipe (s : World π) (b : Block) : World π :=
  { s with machine := { s.machine with memory := s.machine.memory.fill b.ptr b.len 0 } }

/-- The first links of the free lists and all that follow are the same. -/
def SameLists (s t : World π) : Prop :=
  ∀ c i chunks, Chunk.Chain s.machine.memory ((s.heap.tables c).heads.get i) chunks →
    Chunk.Chain t.machine.memory ((t.heap.tables c).heads.get i) chunks

theorem Mirrors.sameLists (hs : s.Mirrors g) (ht : t.Mirrors g) : SameLists s t := by
  intro c i chunks hchain
  rw [hchain.unique (hs.kept.represents.chains c i)]
  exact ht.kept.represents.chains c i

/-- Only the data of the block differs in memory, and it is zero in `t`. No header
word, no other loan and no free chunk is part of it. -/
structure Wiped (s t : World π) (others : List Loan) (data : Span) : Prop where
  agrees : s.machine.memory.AgreesOff t.machine.memory data
  zeros : ∀ x, data.Covers x → t.machine.memory x = 0
  headers : ∀ l ∈ s.loans, ∀ e ∈ l.header, s.machine.memory.AgreesOn t.machine.memory e
  loans : ∀ l ∈ others, s.machine.memory.AgreesOn t.machine.memory l.place.extent
  chunks : ∀ c i chunks, Chunk.Chain s.machine.memory ((s.heap.tables c).heads.get i) chunks →
    ∀ x ∈ chunks, s.machine.memory.AgreesOn t.machine.memory ⟨x, c.bucketSize i⟩

theorem Mirrors.wiped (hs : s.Mirrors g) {l : Loan} {others : List Loan}
    (hl : s.loans = l :: others) {b : Block} (hb : l.block = some b) :
    s.Wiped (s.wipe b) others ⟨b.ptr, b.len⟩ := by
  have hmem : l ∈ s.loans := hl ▸ List.mem_cons_self
  have hsound := hs.loans l hmem
  obtain ⟨hptr, hlen⟩ : b.ptr = l.ptr ∧ b.len = l.size := by
    rw [hsound.block b hb]
    exact ⟨rfl, rfl⟩
  have hagrees : s.machine.memory.AgreesOff (s.wipe b).machine.memory ⟨b.ptr, b.len⟩ :=
    s.machine.memory.agreesOff_overlay b.ptr b.len fun _ => 0
  have hwithin : Span.Within ⟨b.ptr, b.len⟩ l.place.extent := by
    rw [hptr, hlen]
    exact hsound.data_within
  have hapart : ∀ l' ∈ others, l'.place.extent.Disjoint l.place.extent := by
    have hall := hs.extents_apart
    rw [hl] at hall
    exact fun l' hl' => ((List.pairwise_cons.mp hall).1 l' hl').symm
  constructor
  · exact hagrees
  · intro x hx
    exact s.machine.memory.overlay_inside (fun _ => 0) hx
  · intro l' hl' e he
    apply hagrees.on
    rcases List.mem_cons.mp (hl ▸ hl') with rfl | hother
    · have hbefore := hsound.header_before he
      simp only [Span.Disjoint, Span.stop, hptr] at *
      omega
    · exact (hapart l' hother).mono ((hs.loans l' hl').header_within he) hwithin
  · intro l' hl'
    exact hagrees.on ((hapart l' hl').mono (Span.Within.refl _) hwithin)
  · intro c i chunks hchain x hx
    rw [hchain.unique (hs.kept.represents.chains c i)] at hx
    have he := g.mem_freeSpans.mpr ⟨c, i, x, hx, rfl⟩
    exact hagrees.on ((hs.free_apart hmem he).symm.mono (Span.Within.refl _) hwithin)

variable [Platform π]

theorem step_zeroed (s : World π) (layout : Layout) : s.step (.allocate layout true) =
    ((s.step (.allocate layout false)).1,
      match (s.step (.allocate layout false)).1.block? with
      | none => (s.step (.allocate layout false)).2
      | some b => (s.step (.allocate layout false)).2.wipe b) := by
  simp only [step, Heap.allocateZeroed, if_true, Bool.false_eq_true, if_false]
  rcases s.heap.allocate layout s.machine with ⟨_ | b, h', w'⟩
  · rfl
  · rfl

/-- What a block of zeros has in common with a block as it is found, and what the
heap makes of them later. -/
structure ZeroesOnly (s : World π) (layout : Layout) : Prop where
  answer : (s.step (.allocate layout true)).1 = (s.step (.allocate layout false)).1
  books : SameBooks (s.step (.allocate layout false)).2 (s.step (.allocate layout true)).2
  refused : (s.step (.allocate layout false)).1.block? = none →
    (s.step (.allocate layout true)).2 = (s.step (.allocate layout false)).2
  block : ∀ b ∈ (s.step (.allocate layout false)).1.block?, b.len = layout.size ∧
    (s.step (.allocate layout false)).2.Ready (.deallocate b) ∧
    Wiped (s.step (.allocate layout false)).2 (s.step (.allocate layout true)).2 s.loans
      ⟨b.ptr, b.len⟩
  later : ∀ more, Valid more (s.step (.allocate layout false)).2 →
    (after more (s.step (.allocate layout false)).2).machine.Honoured →
    Valid more (s.step (.allocate layout true)).2 ∧
    trace more (s.step (.allocate layout true)).2 =
      trace more (s.step (.allocate layout false)).2 ∧
    SameBooks (after more (s.step (.allocate layout false)).2)
      (after more (s.step (.allocate layout true)).2) ∧
    SameLists (after more (s.step (.allocate layout false)).2)
      (after more (s.step (.allocate layout true)).2)

theorem Mirrors.zeroesOnly (hs : s.Mirrors g) {layout : Layout}
    (hh : (s.step (.allocate layout false)).2.machine.Honoured) : s.ZeroesOnly layout := by
  have hplain := (hs.allocate_follows hh).mirrors
  have hbooks : SameBooks (s.step (.allocate layout false)).2
      (s.step (.allocate layout true)).2 := by
    rw [s.step_zeroed layout]
    cases (s.step (.allocate layout false)).1.block? with
    | none => exact ⟨rfl, .refl _, rfl, rfl⟩
    | some b => exact ⟨rfl, ⟨rfl, rfl⟩, rfl, rfl⟩
  have hzeroed := (hs.allocate_follows (hbooks.calm.honoured_iff.mpr hh)).mirrors
  constructor
  · rw [s.step_zeroed layout]
  · exact hbooks
  · intro hnone
    simp only [s.step_zeroed layout, hnone]
  · intro b hb
    have hloans := loans_step (a := .allocate layout false) rfl (Answer.ptr?_of_block hb)
    rw [Option.mem_def.mp hb] at hloans
    obtain ⟨l, hl, hblock, hsize⟩ : ∃ l, (s.step (.allocate layout false)).2.loans =
        l :: s.loans ∧ l.block = some b ∧ l.size = layout.size := ⟨_, hloans, rfl, rfl⟩
    have hmem : l ∈ (s.step (.allocate layout false)).2.loans := hl ▸ List.mem_cons_self
    have hlen : b.len = l.size := by rw [(hplain.loans l hmem).block b hblock]
    refine ⟨hlen.trans hsize, ⟨l, hmem, hblock⟩, ?_⟩
    simp only [s.step_zeroed layout, Option.mem_def.mp hb]
    exact hplain.wiped hl hblock
  · intro more hv hh'
    obtain ⟨hvalid, htrace, hsame, g', hs', ht'⟩ := hbooks.after hplain hzeroed hv hh'
    exact ⟨hvalid, htrace, hsame, hs'.sameLists ht'⟩

/-- In every state and for every layout, zeros make no difference but to the data. -/
theorem zeroing_is_local {h : Heap} (hf : h.Fresh) (w : Machine π) {acts : List Action}
    {layout : Layout} (hv : Valid acts (start h w))
    (hh : (after (acts ++ [.allocate layout false]) (start h w)).machine.Honoured) :
    (after acts (start h w)).ZeroesOnly layout := by
  rw [after_append] at hh
  have hbefore := (grew_after [.allocate layout false] _).honoured hh
  exact ((hf.mirrors w).after_mirrors hv hbefore).1.zeroesOnly hh

/-- A block that was written to and given back, so its chunk holds what was written. -/
def litter : List Action :=
  [.allocate sheet false, .alloc 16 8, .alloc 100 16, .write 0x100000000010 [7, 8, 9],
    .free 0x1000000000B0, .free 0x100000000010]

theorem zeroing_is_local_litter :
    (after litter onArena).ZeroesOnly sheet ∧
    (after litter onArena).machine.memory 0x100000000011 = 8 ∧
    ((after litter onArena).step (.allocate sheet true)).2.machine.memory 0x100000000011 = 0 := by
  have hv : Valid litter onArena := by decide +kernel
  have hh : (after (litter ++ [.allocate sheet false]) onArena).machine.Honoured := by
    decide +kernel
  exact ⟨zeroing_is_local (.plain 7) _ hv hh, by decide +kernel, by decide +kernel⟩

end World

end ChunkHeap
