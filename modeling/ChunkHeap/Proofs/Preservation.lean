import Mathlib
import ChunkHeap.Proofs.Calls
import ChunkHeap.Proofs.Footprint
import ChunkHeap.Proofs.Moves
import ChunkHeap.Proofs.Safety

/-!
# What users wrote is kept

A call writes header words of the loan that it makes, zeros to its data if that
was asked for, and a link into the chunk of the loan that it ends. None of these
bytes belongs to the data of another loan, so data is read back as it was
written as long as the loan lasts.
-/

set_option autoImplicit false

namespace ChunkHeap

def Call.zeroes : Call → Bool
  | .action (.allocate _ zeroed) => zeroed
  | _ => false

/-- The pointer that a call gives back to the heap `owner`. -/
def Call.returns? (owner : ℕ) : Call → Option ℕ
  | .action (.free ptr) => some ptr
  | .action (.deallocate block) => if block.owner = owner then some block.ptr else none
  | _ => none

/-- The words written when the loan is made. -/
def Loan.header (l : Loan) : List Span := ⟨l.ptr - 4, 4⟩ :: l.place.header

/-- What lies in an extent covers no byte of a disjoint one. -/
theorem Span.Disjoint.not_covers {s t e : Span} {x : ℕ} (hd : s.Disjoint e) (ht : t.Within e)
    (hx : s.Covers x) : ¬ t.Covers x := by
  unfold Disjoint Within Covers at *
  omega

namespace Loan.Sound

variable {l : Loan} {id : ℕ} {t : Span}

theorem header_within (h : l.Sound id) (ht : t ∈ l.header) : t.Within l.place.extent := by
  have hchunk := h.chunk
  have hafter := h.after_chunk
  have hstart := Place.of_start l.total l.chunk
  have hstop := h.covers.2
  rcases List.mem_cons.mp ht with rfl | ht
  · simp only [Chunk.headerSize, place, Span.Within, Span.stop] at *
    omega
  · rcases l.place_cases with ⟨c, i, -, hp⟩ | hp
    · rw [hp] at ht ⊢
      obtain rfl : t = ⟨l.chunk, 4⟩ := by simpa [Place.header] using ht
      have height := c.eight_le_bucketSize i
      exact ⟨Nat.le_refl _, Nat.add_le_add_left ((show 4 ≤ 8 by decide).trans height) l.chunk⟩
    · rw [hp] at ht ⊢
      have hpos := l.total_pos
      simp only [Place.header, List.mem_cons, List.not_mem_nil, or_false] at ht
      simp only [total, Chunk.headerSize, Chunk.oversizedPrefix, Place.extent, Span.Within,
        Span.stop] at *
      rcases ht with rfl | rfl
      · simp only
        omega
      · simp only
        omega

theorem link_within (ht : t ∈ l.place.link) : t.Within l.place.extent := by
  rcases l.place_cases with ⟨c, i, -, hp⟩ | hp
  · rw [hp] at ht ⊢
    obtain rfl : t = ⟨l.chunk, 8⟩ := by simpa [Place.link] using ht
    exact ⟨Nat.le_refl _, Nat.add_le_add_left (c.eight_le_bucketSize i) l.chunk⟩
  · rw [hp] at ht
    simp [Place.link] at ht

end Loan.Sound

theorem Heap.alloc_of_allocate {π : Type} [Platform π] {h h' : Heap} {layout : Layout}
    {w w' : Machine π} {b : Block} (hx : h.allocate layout w = (.ok b, h', w')) :
    h.alloc layout.size layout.align w = (.ok b.ptr, h', w') := by
  unfold allocate at hx
  split at hx
  · simp at hx
  · next halloc =>
    split at hx
    · simp at hx
    · obtain ⟨rfl, rfl, rfl⟩ := by simpa using hx
      exact halloc

namespace World

variable {π : Type} [Platform π] {s : World π} {g : Ideal}

def lentBy (s : World π) (c : Call) : List Loan := (s.call c).2.loans.filter (· ∉ s.loans)

def endedBy (s : World π) (c : Call) : List Loan := s.loans.filter (· ∉ (s.call c).2.loans)

/-- All that a call writes. -/
def footprint (s : World π) (c : Call) : List Span :=
  (s.lentBy c).flatMap Loan.header ++ (if c.zeroes then (s.lentBy c).map Loan.data else []) ++
    (s.endedBy c).flatMap (·.place.link) ++ c.written

/-- What a call leaves as it was: the data of each loan that is there before and
after it, unless the user writes to it, and all memory outside the footprint. The
call makes or ends one loan at most. -/
structure Keeps (s : World π) (c : Call) : Prop where
  data : ∀ l ∈ s.loans, l ∈ (s.call c).2.loans → ∀ x, l.data.Covers x → Outside c.written x →
    (s.call c).2.machine.memory x = s.machine.memory x
  frame : s.machine.WroteOnly (s.call c).2.machine (s.footprint c)
  single : (s.lentBy c).length + (s.endedBy c).length ≤ 1

/-- What a user writes to the data of a loan is read back after other calls,
byte by byte, unless the user writes over it or gives the pointer back. -/
def ReadsBack (s : World π) (l : Loan) : Prop :=
  ∀ (addr : ℕ) (bytes : List UInt8) (more : List Call),
    Span.Within ⟨addr, bytes.length⟩ l.data →
    AllAllowed more (s.call (.action (.write addr bytes))).2 →
    (calls more (s.call (.action (.write addr bytes))).2).machine.Honoured →
    (∀ c ∈ more, c.returns? s.heap.id ≠ some l.ptr) →
    ∀ i b, bytes[i]? = some b → (∀ c ∈ more, Outside c.written (addr + i)) →
      (calls more (s.call (.action (.write addr bytes))).2).machine.memory (addr + i) = b

omit [Platform π] in
theorem filter_not_mem_self (ls : List Loan) : ls.filter (· ∉ ls) = [] := by simp

/-- A step lends one pointer, takes one back or leaves the loans alone. -/
theorem loans_cases (s : World π) (a : Action) : (s.step a).2.loans = s.loans ∨
    (∃ l, (s.step a).2.loans = l :: s.loans) ∨
    ∃ ptr, a.returns? = some ptr ∧ (s.step a).2.loans = s.without ptr := by
  cases a with
  | alloc size align =>
    unfold step
    simp only
    split
    · exact Or.inl rfl
    · exact Or.inr (Or.inl ⟨_, rfl⟩)
  | allocate layout zeroed =>
    simp only [step]
    split
    · exact Or.inl rfl
    · exact Or.inr (Or.inl ⟨_, rfl⟩)
  | free ptr => exact Or.inr (Or.inr ⟨ptr, rfl, rfl⟩)
  | deallocate block => exact Or.inr (Or.inr ⟨block.ptr, rfl, rfl⟩)
  | paddedSize block => exact Or.inl rfl
  | write addr bytes => exact Or.inl rfl

namespace Mirrors

theorem wrote_request (hs : s.Mirrors g) {a : Action} {size align : ℕ}
    (ha : a.asks? = some (size, align)) (hh : (s.step a).2.machine.Honoured) :
    s.machine.WroteOnly (s.step a).2.machine [] ∨
    ∃ ptr, (s.step a).1.ptr? = some ptr ∧ s.machine.WroteOnly (s.step a).2.machine
      (s.headerFor size align ptr ++
        if (Call.action a).zeroes then [⟨ptr, size⟩] else []) := by
  rcases Action.eq_of_asks ha with rfl | ⟨layout, zeroed, rfl, rfl, rfl⟩
  · rcases hx : s.heap.alloc size align s.machine with ⟨result, h', w'⟩
    have hw := s.machine_alloc size align
    rw [hw] at hh ⊢
    have hl := alloc_lent hs hh
    rw [hx] at hl ⊢
    generalize g.alloc size align s.machine.provider = y at hl
    cases hl with
    | refused memory held => exact Or.inl (.of_memory memory)
    | @lent ptr h' w' g' same mirrors =>
      have hptr : (s.step (.alloc size align)).1.ptr? = some ptr := by simp [step, hx, Answer.ptr?]
      exact Or.inr ⟨ptr, hptr, (s.wrote_alloc_ok hx).mono (List.subset_append_left _ _)⟩
  · have halloc := (s.calm_allocate layout zeroed).honoured_iff.mp hh
    rcases hs.allocate_lent halloc with ⟨why, w', hx, -, hm, -⟩ | ⟨ptr, h', w', g', hx, -, -⟩
    · have hstep : (s.step (.allocate layout zeroed)).2.machine = w' := by
        cases zeroed <;> simp [step, Heap.allocateZeroed, hx, settle]
      rw [hstep]
      exact Or.inl (.of_memory hm)
    · have hwrote := s.wrote_alloc_ok (Heap.alloc_of_allocate hx)
      right
      use ptr
      cases zeroed with
      | false =>
        simp only [step, hx, Bool.false_eq_true, if_false, Call.zeroes, List.append_nil]
        exact ⟨rfl, hwrote⟩
      | true =>
        simp only [step, hx, Heap.allocateZeroed, if_true, Call.zeroes]
        exact ⟨rfl, (hwrote.write ptr layout.size _).mono
          (List.perm_append_singleton _ _).symm.subset⟩

theorem wrote_free (hs : s.Mirrors g) {l : Loan} (hl : l ∈ s.loans) :
    s.machine.WroteOnly (s.heap.free l.ptr s.machine).2.2 l.place.link := by
  rcases l.place_cases with ⟨c, i, hi, hp⟩ | hp
  · rw [hs.free_pooled hl hi hp, hp]
    exact (Machine.WroteOnly.of_memory rfl).store l.chunk 8 _
  · rw [hs.free_reserved hl hp, hp]
    exact .of_memory rfl

theorem wrote_return (hs : s.Mirrors g) {a : Action} (ha : s.Ready a) {ptr : ℕ}
    (hr : a.returns? = some ptr) : ∃ l ∈ s.loans, l.ptr = ptr ∧
      s.machine.WroteOnly (s.step a).2.machine l.place.link := by
  cases a with
  | free p =>
    obtain rfl : p = ptr := Option.some.inj hr
    obtain ⟨l, hl, rfl⟩ := ha
    exact ⟨l, hl, rfl, hs.wrote_free hl⟩
  | deallocate block =>
    obtain rfl : block.ptr = ptr := Option.some.inj hr
    obtain ⟨l, hl, hb⟩ := ha
    refine ⟨l, hl, (hs.block_eq hl hb).1.symm, ?_⟩
    simp only [step, hs.deallocate_eq hl hb]
    exact hs.wrote_free hl
  | alloc size align => simp [Action.returns?] at hr
  | allocate layout zeroed => simp [Action.returns?] at hr
  | paddedSize block => simp [Action.returns?] at hr
  | write addr bytes => simp [Action.returns?] at hr

end Mirrors

theorem header_subset {l : Loan} {c : Call} (hl : l ∈ s.lentBy c) :
    l.header ++ (if c.zeroes then [l.data] else []) ⊆ s.footprint c := by
  have hheader : l.header ⊆ (s.lentBy c).flatMap Loan.header := fun t ht =>
    List.mem_flatMap.mpr ⟨l, hl, ht⟩
  have hzeroes : (if c.zeroes then [l.data] else []) ⊆
      if c.zeroes then (s.lentBy c).map Loan.data else [] := by
    split
    · simpa using ⟨l, hl, rfl⟩
    · exact List.Subset.refl _
  intro t ht
  apply List.mem_append_left
  apply List.mem_append_left
  exact List.mem_append.mpr ((List.mem_append.mp ht).imp (@hheader t) (@hzeroes t))

theorem link_subset {l : Loan} {c : Call} (hl : l ∈ s.endedBy c) :
    l.place.link ⊆ s.footprint c := by
  intro t ht
  apply List.mem_append_left
  apply List.mem_append_right
  exact List.mem_flatMap.mpr ⟨l, hl, ht⟩

namespace Mirrors

theorem request_footprint (hs : s.Mirrors g) {a : Action} (ha : s.Ready a) {size align : ℕ}
    (hasks : a.asks? = some (size, align)) (hh : (s.step a).2.machine.Honoured) :
    s.machine.WroteOnly (s.step a).2.machine (s.footprint (.action a)) := by
  rcases hs.wrote_request hasks hh with hw | ⟨ptr, hptr, hw⟩
  · exact hw.mono (List.nil_subset _)
  · have hloans := loans_step hasks hptr
    have hn := (hs.step_follows ha hh).mirrors.ptrs_nodup
    rw [hloans, World.lend, List.map_cons, List.nodup_cons] at hn
    have hl : ⟨ptr, size, align, s.chunkFor size align, (s.step a).1.block?⟩ ∈
        s.lentBy (.action a) := by
      rw [lentBy, hs.call_ready ha, hloans]
      refine List.mem_filter.mpr ⟨List.mem_cons_self, ?_⟩
      simpa using fun h => hn.1 (List.mem_map_of_mem h)
    exact hw.mono (header_subset hl)

theorem return_footprint (hs : s.Mirrors g) {a : Action} (ha : s.Ready a) {ptr : ℕ}
    (hr : a.returns? = some ptr) (hloans : (s.step a).2.loans = s.without ptr) :
    s.machine.WroteOnly (s.step a).2.machine (s.footprint (.action a)) := by
  obtain ⟨l, hl, rfl, hw⟩ := hs.wrote_return ha hr
  have hended : l ∈ s.endedBy (.action a) := by
    rw [endedBy, hs.call_ready ha, hloans]
    refine List.mem_filter.mpr ⟨hl, ?_⟩
    simp [without]
  exact hw.mono (link_subset hended)

theorem wrote_step (hs : s.Mirrors g) {a : Action} (ha : s.Ready a)
    (hh : (s.step a).2.machine.Honoured) :
    s.machine.WroteOnly (s.step a).2.machine (s.footprint (.action a)) := by
  cases a with
  | alloc size align => exact hs.request_footprint ha rfl hh
  | allocate layout zeroed => exact hs.request_footprint ha rfl hh
  | free ptr => exact hs.return_footprint ha rfl rfl
  | deallocate block => exact hs.return_footprint ha rfl rfl
  | paddedSize block => exact (Machine.WroteOnly.of_memory rfl).mono (List.nil_subset _)
  | write addr bytes =>
    have hw := (Machine.WroteOnly.of_memory (w := s.machine) rfl).write addr bytes.length
      fun i => bytes.getD i 0
    exact hw.mono (List.subset_append_right _ _)

/-- No data of a loan that lasts is in the footprint, unless the user writes to it. -/
theorem outside_footprint {g' : Ideal} (hs : s.Mirrors g) {c : Call}
    (hs' : (s.call c).2.Mirrors g') {l : Loan} (hl : l ∈ s.loans) (hl' : l ∈ (s.call c).2.loans)
    {x : ℕ} (hx : l.data.Covers x) (ho : Outside c.written x) : Outside (s.footprint c) x := by
  have hin : l.place.extent.Covers x := by
    have hw := (hs.loans l hl).data_within
    exact ⟨hw.1.trans hx.1, hx.2.trans_le hw.2⟩
  have hlent : ∀ k ∈ s.lentBy c, ∀ t : Span, t.Within k.place.extent → ¬ t.Covers x := by
    intro k hk t ht
    obtain ⟨hmem, hnew⟩ := List.mem_filter.mp hk
    rcases hs'.eq_or_disjoint hl' hmem with rfl | hd
    · exact absurd hl (by simpa using hnew)
    · exact hd.not_covers ht hin
  have hended : ∀ k ∈ s.endedBy c, ∀ t : Span, t.Within k.place.extent → ¬ t.Covers x := by
    intro k hk t ht
    obtain ⟨hmem, hold⟩ := List.mem_filter.mp hk
    rcases hs.eq_or_disjoint hl hmem with rfl | hd
    · exact absurd hl' (by simpa using hold)
    · exact hd.not_covers ht hin
  have hsound : ∀ k ∈ s.lentBy c, k.Sound (s.call c).2.heap.id :=
    fun k hk => hs'.loans k (List.mem_of_mem_filter hk)
  intro t ht
  simp only [footprint, List.mem_append, List.mem_flatMap] at ht
  rcases ht with ((⟨k, hk, ht⟩ | ht) | ⟨k, hk, ht⟩) | ht
  · exact hlent k hk t ((hsound k hk).header_within ht)
  · split at ht
    · obtain ⟨k, hk, rfl⟩ := List.mem_map.mp ht
      exact hlent k hk _ (hsound k hk).data_within
    · simp at ht
  · exact hended k hk t (Loan.Sound.link_within ht)
  · exact ho t ht

theorem single_step (hs : s.Mirrors g) {a : Action} (ha : s.Ready a) :
    (s.lentBy (.action a)).length + (s.endedBy (.action a)).length ≤ 1 := by
  have hcall := hs.call_ready ha
  have hmore : ∀ (l : Loan) (ls : List Loan), ((l :: ls).filter (· ∉ ls)).length ≤ 1 := by
    intro l ls
    rw [List.filter_cons, filter_not_mem_self]
    split <;> simp
  rw [lentBy, endedBy, hcall]
  rcases s.loans_cases a with heq | ⟨l, heq⟩ | ⟨ptr, hr, heq⟩
  · rw [heq, filter_not_mem_self]
    exact Nat.zero_le 1
  · have hkeep : s.loans.filter (· ∉ (l :: s.loans)) = [] := by
      rw [List.filter_eq_nil_iff]
      intro k hk
      simpa using fun _ => hk
    rw [heq, hkeep]
    exact hmore l s.loans
  · obtain ⟨l, hl, rfl, -⟩ := hs.wrote_return ha hr
    obtain ⟨before, after, hsplit, hwithout, -⟩ := hs.exists_split hl
    have hperm : s.loans.Perm (l :: s.without l.ptr) := by
      rw [hsplit, hwithout]
      exact List.perm_middle
    have hkeep : (s.without l.ptr).filter (· ∉ s.loans) = [] := by
      rw [List.filter_eq_nil_iff]
      intro k hk
      simpa using List.mem_of_mem_filter hk
    rw [heq, hkeep, (hperm.filter _).length_eq, List.length_nil, Nat.zero_add]
    exact hmore l _

theorem keeps (hs : s.Mirrors g) {c : Call} (hc : s.Allowed c)
    (hh : (s.call c).2.machine.Honoured) : s.Keeps c := by
  have hwrote : s.machine.WroteOnly (s.call c).2.machine (s.footprint c) := by
    rcases hs.call_cases hc with heq | ⟨a, rfl, ha, heq⟩
    · rw [heq]
      exact (Machine.WroteOnly.of_memory rfl).mono (List.nil_subset _)
    · rw [heq] at hh ⊢
      exact hs.wrote_step ha hh
  have hsingle : (s.lentBy c).length + (s.endedBy c).length ≤ 1 := by
    rcases hs.call_cases hc with heq | ⟨a, rfl, ha, -⟩
    · rw [lentBy, endedBy, heq, filter_not_mem_self]
      exact Nat.zero_le 1
    · exact hs.single_step ha
  obtain ⟨g', hs'⟩ := hs.call_mirrors hc hh
  refine ⟨?_, hwrote, hsingle⟩
  intro l hl hl' x hx ho
  obtain ⟨r, hr, hw⟩ := (hs.safe hl).held
  have hdata := (hs.loans l hl).data_within.trans hw
  have hin : r.Covers x := ⟨hdata.1.trans hx.1, hx.2.trans_le hdata.2⟩
  exact (hwrote.eq_outside hh hr hin (hs.outside_footprint hs' hl hl' hx ho)).symm

theorem mem_loans_call (hs : s.Mirrors g) {c : Call} (hc : s.Allowed c) {l : Loan}
    (hl : l ∈ s.loans) (hr : c.returns? s.heap.id ≠ some l.ptr) : l ∈ (s.call c).2.loans := by
  rcases hs.call_cases hc with heq | ⟨a, rfl, ha, heq⟩
  · rwa [heq]
  · rw [heq]
    apply mem_loans_step hl
    intro h
    apply hr
    cases a with
    | deallocate block =>
      obtain ⟨k, hk, hb⟩ := ha
      rw [Call.returns?, if_pos (hs.block_eq hk hb).2]
      exact h
    | _ => exact h

theorem id_call (hs : s.Mirrors g) {c : Call} (hc : s.Allowed c)
    (hh : (s.call c).2.machine.Honoured) : (s.call c).2.heap.id = s.heap.id := by
  rcases hs.call_cases hc with heq | ⟨a, -, ha, heq⟩
  · rw [heq]
  · rw [heq] at hh ⊢
    obtain ⟨g', hs', hm⟩ := hs.step_moves ha hh
    rw [hs.kept.represents.id, hs'.kept.represents.id, hm.id_eq]

/-- Data of a loan that no call gives back or writes to is the same after all calls. -/
theorem data_calls {cs : List Call} (hs : s.Mirrors g) (hv : AllAllowed cs s)
    (hh : (calls cs s).machine.Honoured) {l : Loan} (hl : l ∈ s.loans)
    (hr : ∀ c ∈ cs, c.returns? s.heap.id ≠ some l.ptr) {x : ℕ} (hx : l.data.Covers x)
    (ho : ∀ c ∈ cs, Outside c.written x) :
    (calls cs s).machine.memory x = s.machine.memory x := by
  induction cs generalizing s g with
  | nil => rfl
  | cons c cs ih =>
    obtain ⟨hfirst, hrest⟩ := List.forall_mem_cons.mp hr
    obtain ⟨hother, hothers⟩ := List.forall_mem_cons.mp ho
    have hh₁ := (grew_calls cs _).honoured hh
    obtain ⟨g', hs'⟩ := hs.call_mirrors hv.1 hh₁
    have hl' := hs.mem_loans_call hv.1 hl hfirst
    have hid := hs.id_call hv.1 hh₁
    have hstep := (hs.keeps hv.1 hh₁).data l hl hl' x hx hother
    exact (ih hs' hv.2 hh hl' (hid ▸ hrest) hothers).trans hstep

theorem readsBack (hs : s.Mirrors g) {l : Loan} (hl : l ∈ s.loans) : s.ReadsBack l := by
  intro addr bytes more hw hv hh hr i b hb ho
  have hlt : i < bytes.length := (List.getElem?_eq_some_iff.mp hb).1
  have hx : l.data.Covers (addr + i) := by
    simp only [Span.Within, Span.Covers, Span.stop] at hw ⊢
    omega
  have hwritten : (s.call (.action (.write addr bytes))).2.machine.memory (addr + i) = b := by
    change s.machine.memory.write addr bytes (addr + i) = b
    rw [Memory.write, Memory.overlay_inside _ _ (by omega), Nat.add_sub_cancel_left,
      List.getD_eq_getElem?_getD, hb]
    rfl
  have hs' : (s.call (.action (.write addr bytes))).2.Mirrors g := hs.write hl _ hw
  exact (hs'.data_calls hv hh hl hr hx ho).trans hwritten

end Mirrors

theorem user_data_preserved {h : Heap} (hf : h.Fresh) (w : Machine π) {cs : List Call}
    (hv : AllAllowed cs (start h w)) (hh : (calls cs (start h w)).machine.Honoured) :
    (∀ c, (calls cs (start h w)).Allowed c →
      ((calls cs (start h w)).call c).2.machine.Honoured → (calls cs (start h w)).Keeps c) ∧
    ∀ l ∈ (calls cs (start h w)).loans, (calls cs (start h w)).ReadsBack l := by
  obtain ⟨g, hs⟩ := (hf.mirrors w).calls_mirrors hv hh
  exact ⟨fun c hc hhc => hs.keeps hc hhc, fun l hl => hs.readsBack hl⟩

/-- Calls after the errands: a block of zeros, a block of another heap that holds
the same pointer, the figures, the end of the oversized loan and a write that
leaves one of the bytes written before. -/
def visits : List Call :=
  [.action (.allocate sheet true), .action (.deallocate ⟨0x100000000028, 20, .pooled .small, 8⟩),
    .stats, .action (.free 0x100000400040), .action (.write 0x100000000028 [9, 9])]

theorem user_data_preserved_errands :
    (calls (errands.map .action) onArena).Keeps
      (.action (.allocate ⟨100, 16, by decide, by decide⟩ true)) ∧
    AllAllowed visits
      ((calls (errands.map .action) onArena).call (.action (.write 0x100000000028 [5, 6, 7]))).2 ∧
    (calls visits ((calls (errands.map .action) onArena).call
      (.action (.write 0x100000000028 [5, 6, 7]))).2).machine.memory 0x10000000002A = 7 := by
  have hv : AllAllowed (errands.map .action) onArena := by decide +kernel
  have hh : (calls (errands.map .action) onArena).machine.Honoured := by decide +kernel
  have hv' : AllAllowed visits ((calls (errands.map .action) onArena).call
      (.action (.write 0x100000000028 [5, 6, 7]))).2 := by decide +kernel
  have hh' : (calls visits ((calls (errands.map .action) onArena).call
      (.action (.write 0x100000000028 [5, 6, 7]))).2).machine.Honoured := by decide +kernel
  have hh'' : ((calls (errands.map .action) onArena).call
      (.action (.allocate ⟨100, 16, by decide, by decide⟩ true))).2.machine.Honoured := by
    decide +kernel
  have hl : ⟨0x100000000028, 20, 4, 0x100000000020, none⟩ ∈
      (calls (errands.map .action) onArena).loans := by decide +kernel
  obtain ⟨hkeeps, hback⟩ := user_data_preserved (.plain 7) _ hv hh
  refine ⟨hkeeps _ (Or.inl trivial) hh'', hv', ?_⟩
  exact hback _ hl 0x100000000028 [5, 6, 7] visits (by decide) hv' hh' (by decide) 2 7 rfl
    (by decide)

end World

end ChunkHeap
