import Mathlib
import ChunkHeap.Proofs.Representation
import ChunkHeap.Proofs.Run

/-!
# Loans and their places

A world mirrors an ideal heap if its heap represents it and its loans are the
live pointers. Users write behind the pointers and header words stand in front
of them, so no write of a user changes what is mirrored.
-/

set_option autoImplicit false

namespace ChunkHeap

theorem Heap.alignmentAllowed_iff {align : ℕ} :
    alignmentAllowed align = true ↔ (∃ k, align = 2 ^ k) ∧ align ≤ maxAlignment := by
  rw [alignmentAllowed, Bool.and_eq_true, decide_eq_true_eq, decide_eq_true_eq]
  rfl

/-- If no key occurs twice, one item is dropped with its key. -/
theorem exists_split_of_nodup {α κ : Type} [DecidableEq κ] (key : α → κ) {items : List α} {x : α}
    (hn : (items.map key).Nodup) (hx : x ∈ items) :
    ∃ before after, items = before ++ x :: after ∧
      items.filter (key · ≠ key x) = before ++ after ∧ ∀ y ∈ before ++ after, key y ≠ key x := by
  obtain ⟨before, after, rfl⟩ := List.append_of_mem hx
  rw [List.map_append, List.map_cons, List.nodup_middle, List.nodup_cons, ← List.map_append] at hn
  have hne : ∀ y ∈ before ++ after, key y ≠ key x :=
    fun y hy heq => hn.1 (heq ▸ List.mem_map_of_mem hy)
  refine ⟨before, after, rfl, ?_, hne⟩
  rw [List.filter_append, List.filter_cons_of_neg (by simp), ← List.filter_append,
    List.filter_eq_self]
  intro y hy
  simpa using hne y hy

/-- How a heap fulfils a request. -/
structure Loan.Sound (l : Loan) (id : ℕ) : Prop where
  allowed : Heap.alignmentAllowed l.align = true
  fits : l.total < wordLimit
  chunk : Chunk.oversizedPrefix ≤ l.chunk
  ptr : l.ptr = Chunk.dataAt l.chunk l.align
  block : ∀ b ∈ l.block, b = ⟨l.ptr, l.size, Regime.ofSize l.total, id⟩

namespace Loan.Sound

variable {l : Loan} {id : ℕ}

theorem align_pos (h : l.Sound id) : 0 < l.align := by
  obtain ⟨k, hk⟩ := (Heap.alignmentAllowed_iff.mp h.allowed).1
  rw [hk]
  exact Nat.two_pow_pos k

theorem after_chunk (h : l.Sound id) : l.chunk + Chunk.headerSize ≤ l.ptr := by
  rw [h.ptr]
  exact Chunk.after_header _ h.align_pos

theorem start_le_ptr (h : l.Sound id) : l.place.extent.start ≤ l.ptr := by
  have hs := l.place.start_le_chunk
  rw [place, Place.chunk_of _ h.chunk] at hs
  exact hs.trans ((Nat.le_add_right _ _).trans h.after_chunk)

/-- The slack for the alignment is enough for all that was asked for. -/
theorem data_stop_lt (h : l.Sound id) : l.data.stop < l.place.extent.stop := by
  have hlt := Chunk.dataAt_lt l.chunk h.align_pos
  have hstop := Place.of_stop l.total h.chunk
  rw [← h.ptr] at hlt
  simp only [total] at hstop
  simp only [data, place, total, Span.stop] at *
  omega

theorem data_within (h : l.Sound id) : l.data.Within l.place.extent :=
  ⟨h.start_le_ptr, h.data_stop_lt.le⟩

theorem covers (h : l.Sound id) : l.place.extent.Covers l.ptr :=
  ⟨h.start_le_ptr, lt_of_le_of_lt (Nat.le_add_right _ _) h.data_stop_lt⟩

end Loan.Sound

namespace World

variable {π : Type} {s : World π} {g : Ideal}

structure Mirrors (s : World π) (g : Ideal) : Prop where
  kept : Kept [] s.heap s.machine.memory g s.machine.held s.cuts
  live : g.live = s.loans.map fun l => (l.ptr, l.place)
  loans : ∀ l ∈ s.loans, l.Sound s.heap.id

namespace Mirrors

theorem places_eq (hs : s.Mirrors g) : g.live.map Prod.snd = s.loans.map Loan.place := by
  rw [hs.live, List.map_map]
  rfl

theorem owns (hs : s.Mirrors g) :
    Owns g (s.loans.map Loan.place) s.machine.held s.cuts := by
  rw [← hs.places_eq]
  exact hs.kept.owns

theorem shows (hs : s.Mirrors g) {l : Loan} (hl : l ∈ s.loans) :
    l.place.Shows s.machine.memory l.ptr := by
  apply hs.kept.represents.live (l.ptr, l.place)
  rw [hs.live]
  exact List.mem_map_of_mem hl

theorem extents_apart (hs : s.Mirrors g) :
    s.loans.Pairwise fun l l' => l.place.extent.Disjoint l'.place.extent := by
  have ha := (List.pairwise_append.mp hs.owns.extents_apart).1
  rwa [List.map_map, List.pairwise_map] at ha

theorem eq_or_disjoint (hs : s.Mirrors g) {l l' : Loan} (hl : l ∈ s.loans) (hl' : l' ∈ s.loans) :
    l = l' ∨ l.place.extent.Disjoint l'.place.extent := by
  have hsymm : Std.Symm fun l l' : Loan => l.place.extent.Disjoint l'.place.extent :=
    ⟨fun _ _ h => h.symm⟩
  by_cases h : l = l'
  · exact Or.inl h
  · exact Or.inr (hs.extents_apart.forall hl hl' h)

/-- The bytes of a free chunk belong to no loan. -/
theorem free_apart (hs : s.Mirrors g) {l : Loan} (hl : l ∈ s.loans) {e : Span}
    (he : e ∈ g.freeSpans) : l.place.extent.Disjoint e := by
  have hplace : l.place.extent ∈ (s.loans.map Loan.place).map Place.extent :=
    List.mem_map_of_mem (List.mem_map_of_mem hl)
  exact (List.pairwise_append.mp hs.owns.extents_apart).2.2 _ hplace e he

theorem ptrs_nodup (hs : s.Mirrors g) : (s.loans.map Loan.ptr).Nodup := by
  rw [List.Nodup, List.pairwise_map]
  apply hs.extents_apart.imp_of_mem
  intro l l' hl hl' hd heq
  have h := (hs.loans l hl).covers
  have h' := (hs.loans l' hl').covers
  rw [heq] at h
  unfold Span.Disjoint Span.Covers at *
  omega

theorem exists_split (hs : s.Mirrors g) {l : Loan} (hl : l ∈ s.loans) :
    ∃ before after, s.loans = before ++ l :: after ∧ s.without l.ptr = before ++ after ∧
      ∀ l' ∈ before ++ after, l'.ptr ≠ l.ptr :=
  exists_split_of_nodup Loan.ptr hs.ptrs_nodup hl

theorem lookup_eq (hs : s.Mirrors g) {l : Loan} (hl : l ∈ s.loans) :
    g.live.lookup l.ptr = some l.place := by
  obtain ⟨before, after, hsplit, -, hne⟩ := hs.exists_split hl
  rw [List.lookup_eq_some_iff]
  use before.map fun l => (l.ptr, l.place), after.map fun l => (l.ptr, l.place)
  constructor
  · rw [hs.live, hsplit, List.map_append, List.map_cons]
  · intro q hq
    obtain ⟨l', hl', rfl⟩ := List.mem_map.mp hq
    simpa using (hne l' (by simp [hl'])).symm

/-- Users cannot disturb the heap. -/
theorem write (hs : s.Mirrors g) {l : Loan} (hl : l ∈ s.loans) {addr n : ℕ} (f : ℕ → UInt8)
    (hw : Span.Within ⟨addr, n⟩ l.data) :
    Mirrors { s with machine := { s.machine with memory := s.machine.memory.overlay addr n f } }
      g where
  kept := by
    constructor
    · apply hs.kept.represents.congr
      · intro t ht
        have hd := (hs.free_apart hl ht).symm
        exact Memory.agreesOn_overlay _ f (hw.trans (hs.loans l hl).data_within) hd
      · intro q hq
        rw [hs.live] at hq
        obtain ⟨l', hl', rfl⟩ := List.mem_map.mp hq
        have hstart := (hs.loans l' hl').start_le_ptr
        apply Memory.agreesOn_overlay _ f hw
        -- the header words of the loan itself are safe because they stand in
        -- front of its data, those of others because their extents are disjoint
        rcases hs.eq_or_disjoint hl hl' with rfl | hd
        · simp only [Span.Disjoint, Span.stop, Loan.data]
          omega
        · have hfront : Span.Within ⟨l'.place.extent.start, l'.ptr - l'.place.extent.start⟩
              l'.place.extent := by
            have hc := (hs.loans l' hl').covers.2
            simp only [Span.Within, Span.stop] at *
            omega
          exact hd.symm.mono hfront (hs.loans l hl).data_within
    · exact hs.kept.owns
  live := hs.live
  loans := hs.loans

end Mirrors

end World

end ChunkHeap
