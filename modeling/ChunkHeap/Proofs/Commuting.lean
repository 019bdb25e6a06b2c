import Mathlib
import ChunkHeap.Proofs.Calls
import ChunkHeap.Proofs.Recycling

/-!
# Steps that commute

A chunk that is given back or lent again changes one bucket and bytes of its
own. So steps about different buckets can be done in either order: they are
answered alike and leave the same heap, the same loans and the same memory.
-/

set_option autoImplicit false

namespace ChunkHeap

/-- A bucket gets another first chunk, and the free chunks of its table are
counted anew. -/
def Heap.relink (h : Heap) (c : SizeClass) (i : Fin bucketCount) (head : Option ℕ)
    (count : ℕ → ℕ) : Heap :=
  h.withTable c { h.tables c with
    heads := (h.tables c).heads.set i.val head i.isLt
    count := count (h.tables c).count }

theorem Heap.relink_comm (h : Heap) {c c' : SizeClass} {i i' : Fin bucketCount}
    (hne : (c, i) ≠ (c', i')) (head head' : Option ℕ) {count count' : ℕ → ℕ}
    (hcount : count (count' (h.tables c).count) = count' (count (h.tables c).count)) :
    (h.relink c i head count).relink c' i' head' count' =
      (h.relink c' i' head' count').relink c i head count := by
  by_cases hc : c = c'
  · subst hc
    have hi : i.val ≠ i'.val := by
      rintro heq
      exact hne (by rw [Fin.ext heq])
    have htable : ∀ d, ((h.relink c i head count).relink c i' head' count').tables d =
        ((h.relink c i' head' count').relink c i head count).tables d := by
      intro d
      by_cases hd : d = c
      · subst hd
        simp only [relink, withTable_same, hcount]
        rw [Vector.set_comm _ _ hi]
      · simp only [relink, withTable_other _ _ hd]
    exact congrArg (fun tables => { h with tables := tables }) (funext htable)
  · have htable : ∀ d, ((h.relink c i head count).relink c' i' head' count').tables d =
        ((h.relink c' i' head' count').relink c i head count).tables d := by
      intro d
      by_cases hd : d = c
      · subst hd
        simp only [relink, withTable_same, withTable_other _ _ hc]
      · by_cases hd' : d = c'
        · subst hd'
          simp only [relink, withTable_same, withTable_other _ _ hd]
        · simp only [relink, withTable_other _ _ hd, withTable_other _ _ hd']
    exact congrArg (fun tables => { h with tables := tables }) (funext htable)

/-- The header words of a chunk that is lent at a pointer. -/
def Chunk.header (m : Memory) (chunk padded ptr : ℕ) : Memory :=
  (setSize m chunk padded).store (ptr - 4) 4 (ptr - (chunk + headerSize))

/-- The chunk of a loan belongs to a bucket. -/
structure Loan.Lies (l : Loan) (c : SizeClass) (i : Fin bucketCount) : Prop where
  padded : l.padded? = some (c.bucketSize i)
  regime : Regime.ofSize (c.bucketSize i) = .pooled c
  place : l.place = .pooled c l.chunk (c.bucketSize i)

theorem Loan.exists_lies {l : Loan} {n : ℕ} (h : l.padded? = some n) :
    ∃ c i, n = c.bucketSize i ∧ l.Lies c i := by
  obtain ⟨c, i, rfl, hc, hp⟩ := place_of_padded h
  exact ⟨c, i, rfl, h, hc, hp⟩

/-- The first free chunk of a padded size. -/
def Heap.firstFree? (h : Heap) (padded : ℕ) : Option ℕ :=
  match Regime.ofSize padded with
  | .pooled c =>
      match (h.tables c).bucket padded with
      | .ok i => (h.tables c).heads.get i
      | .error _ => none
  | .oversized => none

/-- What a step changes when a chunk goes from its bucket to a user or back. -/
structure Handover where
  c : SizeClass
  i : Fin bucketCount
  /-- The first chunk of the bucket from then on. -/
  head : Option ℕ
  count : ℕ → ℕ
  memory : Memory → Memory
  loans : List Loan → List Loan

namespace Handover

/-- The chunk of a loan goes in front of its bucket. -/
def back (l : Loan) (c : SizeClass) (i : Fin bucketCount) (next : Option ℕ) : Handover where
  c := c
  i := i
  head := some l.chunk
  count := (· + 1)
  memory := fun m => Chunk.setNext m l.chunk next
  loans := List.filter (·.ptr ≠ l.ptr)

/-- The first chunk of a bucket becomes a loan. -/
def reuse (l : Loan) (c : SizeClass) (i : Fin bucketCount) (next : Option ℕ) (zeroed : Bool) :
    Handover where
  c := c
  i := i
  head := next
  count := (· - 1)
  memory := fun m =>
    let m := Chunk.header m l.chunk (c.bucketSize i) l.ptr
    if zeroed then m.fill l.ptr l.size 0 else m
  loans := (l :: ·)

theorem back_memory_comm {l l' : Loan} (c c' : SizeClass) (i i' : Fin bucketCount)
    (next next' : Option ℕ) (hd : Span.Disjoint ⟨l.chunk, 8⟩ ⟨l'.chunk, 8⟩) (m : Memory) :
    (back l c i next).memory ((back l' c' i' next').memory m) =
      (back l' c' i' next').memory ((back l c i next).memory m) := by
  simp only [back, Chunk.setNext, Memory.store]
  exact m.overlay_comm _ _ hd.symm

/-- The header words and the data of a loan lie inside its chunk. -/
theorem reuse_memory_comm {l l' : Loan} {c : SizeClass} (c' : SizeClass) {i : Fin bucketCount}
    (i' : Fin bucketCount) (next next' : Option ℕ) (zeroed : Bool)
    (hd : Span.Disjoint ⟨l.chunk, c.bucketSize i⟩ ⟨l'.chunk, 8⟩)
    (hafter : l.chunk + Chunk.headerSize ≤ l.ptr)
    (hstop : l.ptr + l.size ≤ l.chunk + c.bucketSize i) (m : Memory) :
    (reuse l c i next zeroed).memory ((back l' c' i' next').memory m) =
      (back l' c' i' next').memory ((reuse l c i next zeroed).memory m) := by
  have hinside : ∀ (m : Memory) {a n : ℕ} (f f' : ℕ → UInt8),
      l.chunk ≤ a → a + n ≤ l.chunk + c.bucketSize i →
      (m.overlay l'.chunk 8 f').overlay a n f = (m.overlay a n f).overlay l'.chunk 8 f' := by
    intro m a n f f' hlow hhigh
    have hwithin : Span.Within ⟨a, n⟩ ⟨l.chunk, c.bucketSize i⟩ := ⟨hlow, hhigh⟩
    exact m.overlay_comm f' f (hd.mono hwithin (Span.Within.refl _)).symm
  have height := c.eight_le_bucketSize i
  simp only [Chunk.headerSize] at hafter
  have hheader : ∀ m : Memory,
      Chunk.header (Chunk.setNext m l'.chunk next') l.chunk (c.bucketSize i) l.ptr =
        Chunk.setNext (Chunk.header m l.chunk (c.bucketSize i) l.ptr) l'.chunk next' := by
    intro m
    simp only [Chunk.header, Chunk.setNext, Chunk.setSize, Memory.store]
    rw [hinside _ _ _ (Nat.le_refl _) (by omega), hinside _ _ _ (by omega) (by omega)]
  cases zeroed with
  | false => exact hheader m
  | true =>
    simp only [reuse, back, if_true, hheader]
    simp only [Memory.fill, Chunk.setNext, Memory.store]
    exact hinside _ _ _ (by omega) hstop

end Handover

namespace Action

/-- The loan of a chunk to a request. -/
def loan (a : Action) (size align chunk id : ℕ) : Loan :=
  let ptr := Chunk.dataAt chunk align
  ⟨ptr, size, align, chunk,
    match a with
    | .allocate .. => some ⟨ptr, size, Regime.ofSize (Chunk.headerSize + size + align), id⟩
    | _ => none⟩

def zeroes : Action → Bool
  | .allocate _ zeroed => zeroed
  | _ => false

end Action

/-- The answer that hands out a loan. -/
def Loan.answer (l : Loan) : Answer :=
  match l.block with
  | some block => .block (.ok block)
  | none => .pointer (.ok l.ptr)

theorem Action.ptr?_loan (a : Action) (size align chunk id : ℕ) :
    (a.loan size align chunk id).answer.ptr? = some (Chunk.dataAt chunk align) := by
  cases a <;> rfl

namespace World

variable {π : Type} {s : World π} {g : Ideal}

def hand (s : World π) (e : Handover) : World π where
  heap := s.heap.relink e.c e.i e.head e.count
  machine := { s.machine with memory := e.memory s.machine.memory }
  loans := e.loans s.loans
  cuts := s.cuts

theorem settle_hand (s : World π) (e : Handover) :
    s.settle (s.hand e).heap (s.hand e).machine (s.hand e).loans = s.hand e := by
  have hcuts : s.heap.regions.grown s.heap.regions ++ s.cuts = s.cuts := by
    rw [RegionSource.grown_self, List.nil_append]
  exact congrArg (fun cuts => { s.hand e with cuts := cuts }) hcuts

theorem hand_comm {e e' : Handover} (hne : (e.c, e.i) ≠ (e'.c, e'.i))
    (hcount : e.count (e'.count (s.heap.tables e.c).count) =
      e'.count (e.count (s.heap.tables e.c).count))
    (hmemory : ∀ m, e.memory (e'.memory m) = e'.memory (e.memory m))
    (hloans : e.loans (e'.loans s.loans) = e'.loans (e.loans s.loans)) :
    (s.hand e).hand e' = (s.hand e').hand e := by
  simp only [hand, hmemory, hloans, s.heap.relink_comm hne _ _ hcount]

variable [Platform π]

theorem Mirrors.step_back (hs : s.Mirrors g) {l : Loan} (hl : l ∈ s.loans) {c : SizeClass}
    {i : Fin bucketCount} (hp : l.Lies c i) {a : Action} (ha : l.Back a) :
    s.step a = (.returned (.ok ()),
      s.hand (.back l c i (g.stack c (c.bucketSize i)).head?)) := by
  have hfree := hs.free_pooled hl hp.regime hp.place
  rw [(hs.kept.represents.chains c i).head_eq] at hfree
  have hhand := s.settle_hand (.back l c i (g.stack c (c.bucketSize i)).head?)
  cases ha with
  | free =>
    rw [step, hfree]
    exact congrArg (Prod.mk _) hhand
  | @deallocate block held =>
    rw [step, hs.deallocate_eq hl held, hfree, (hs.block_eq hl held).1]
    exact congrArg (Prod.mk _) hhand

section

variable {size align chunk : ℕ} {c : SizeClass} {i : Fin bucketCount} {rest : List ℕ}

/-- A request takes the first chunk of a bucket. -/
theorem Mirrors.takeChunk_top (hs : s.Mirrors g)
    (hc : Regime.ofSize (Chunk.headerSize + size + align) = .pooled c)
    (hi : c.padded size align = c.bucketSize i)
    (htop : g.stack c (c.bucketSize i) = chunk :: rest) :
    s.heap.takeChunk (Chunk.headerSize + size + align) s.machine =
      (.ok chunk, s.heap.relink c i rest.head? (· - 1),
        { s.machine with
          memory := Chunk.setSize s.machine.memory chunk (c.bucketSize i) }) := by
  have hr := hs.kept.represents
  have hfit := BucketTable.fit_pooled (hr.units c) hc (Chunk.total_pos size align) hi
  simp only [Heap.takeChunk, hc, BucketTable.take, hfit, hr.obtain_top htop,
    (hr.head_eq htop).2.head_eq]
  rfl

theorem Mirrors.alloc_top (hs : s.Mirrors g) (ha : Heap.alignmentAllowed align = true)
    (hc : Regime.ofSize (Chunk.headerSize + size + align) = .pooled c)
    (hi : c.padded size align = c.bucketSize i)
    (htop : g.stack c (c.bucketSize i) = chunk :: rest) :
    s.heap.alloc size align s.machine =
      (.ok (Chunk.dataAt chunk align), s.heap.relink c i rest.head? (· - 1),
        { s.machine with
          memory := Chunk.header s.machine.memory chunk (c.bucketSize i)
            (Chunk.dataAt chunk align) }) := by
  obtain ⟨⟨k, rfl⟩, hmax⟩ := Heap.alignmentAllowed_iff.mp ha
  have hlimit : chunk + Chunk.headerSize + 2 ^ k < wordLimit := by
    have hstop := (hs.kept.pop htop).hand_within.2
    have hle : Chunk.headerSize + size + 2 ^ k ≤ c.bucketSize i := hi ▸ Word.le_ceil _ c.unit_pos
    have hmax : layoutLimit < wordLimit := by decide
    simp only [Place.extent, Span.stop] at hstop
    omega
  have hdata : Chunk.placeData (Chunk.setSize s.machine.memory chunk (c.bucketSize i)) chunk
      (2 ^ k) = .ok (_, Chunk.header s.machine.memory chunk (c.bucketSize i) _) :=
    Chunk.placeData_two_pow hlimit
  have htake := hs.takeChunk_top hc hi htop
  have halloc := Heap.alloc_taken ha (Regime.lt_wordLimit hc) htake hdata
  exact halloc

theorem Mirrors.step_reuse (hs : s.Mirrors g) {a : Action} (hp : a.Pools size align c)
    (ha : Heap.alignmentAllowed align = true) (hi : c.padded size align = c.bucketSize i)
    (htop : g.stack c (c.bucketSize i) = chunk :: rest) :
    s.step a = ((a.loan size align chunk s.heap.id).answer,
      s.hand (.reuse (a.loan size align chunk s.heap.id) c i rest.head? a.zeroes)) := by
  have halloc := hs.alloc_top ha hp.regime hi htop
  have hfor : s.chunkFor size align = chunk := by
    rw [chunkFor, Heap.totalSize_eq (Regime.lt_wordLimit hp.regime)]
    simp only [hs.takeChunk_top hp.regime hi htop]
  have hhand := s.settle_hand
    (.reuse (a.loan size align chunk s.heap.id) c i rest.head? a.zeroes)
  rcases Action.eq_of_asks hp.asks with rfl | ⟨layout, zeroed, rfl, rfl, rfl⟩
  · simp only [step, halloc, World.lend, hfor]
    exact congrArg (Prod.mk _) hhand
  · have hblock := Heap.totalSize_eq (Regime.lt_wordLimit hp.regime)
    cases zeroed
    · simp only [step, Heap.allocate, halloc, hblock, World.lend, hfor, Bool.false_eq_true,
        if_false]
      exact congrArg (Prod.mk _) hhand
    · simp only [step, Heap.allocateZeroed, Heap.allocate, halloc, hblock, World.lend, hfor,
        if_true]
      exact congrArg (Prod.mk _) hhand

end

/-- Two actions can be done in either order. -/
structure Commutes (s : World π) (a b : Action) : Prop where
  valid : Valid [a, b] s ∧ Valid [b, a] s
  first : ((s.step b).2.step a).1 = (s.step a).1
  second : ((s.step a).2.step b).1 = (s.step b).1
  world : after [a, b] s = after [b, a] s

theorem Commutes.of_hand {a b : Action} {x y : Answer} {e e' : Handover}
    (ha : s.Ready a ∧ s.step a = (x, s.hand e)) (hb : s.Ready b ∧ s.step b = (y, s.hand e'))
    (hab : (s.hand e).Ready b ∧ (s.hand e).step b = (y, (s.hand e).hand e'))
    (hba : (s.hand e').Ready a ∧ (s.hand e').step a = (x, (s.hand e').hand e))
    (hcomm : (s.hand e).hand e' = (s.hand e').hand e) : s.Commutes a b where
  valid := by
    simp only [Valid, ha, hb, hab, hba, and_self]
  first := by rw [hb.2, hba.2, ha.2]
  second := by rw [ha.2, hab.2, hb.2]
  world := by
    simp only [after, ha, hb, hab, hba, hcomm]

/-- A request for an alignment that is never allowed does nothing. -/
theorem Commutes.of_disallowed {a b : Action} {size align : ℕ}
    (hasks : a.asks? = some (size, align)) (ha : ¬ Heap.alignmentAllowed align = true)
    (hb : s.Ready b) : s.Commutes a b := by
  obtain ⟨x, hx⟩ : ∃ x, ∀ t : World π, t.step a = (x, t) := by
    have halloc : ∀ t : World π, t.heap.alloc size align t.machine =
        (.error (.refused (.invalidAlignment align)), t.heap, t.machine) := by
      intro t
      rw [Heap.alloc, if_pos (by simpa using ha)]
    rcases Action.eq_of_asks hasks with rfl | ⟨layout, zeroed, rfl, rfl, rfl⟩
    · refine ⟨.pointer (.error (.refused (.invalidAlignment align))), fun t => ?_⟩
      simp only [step, halloc, settle_self]
    · refine ⟨.block (.error (.refused (.invalidAlignment layout.align))), fun t => ?_⟩
      cases zeroed <;> simp [step, Heap.allocateZeroed, Heap.allocate, halloc, settle_self]
  have hready : ∀ t : World π, t.Ready a := fun t => ready_request hasks
  constructor
  · simp only [Valid, hx, hready, hb, and_self]
  · rw [hx, hx]
  · rw [hx]
  · simp only [after, hx]

namespace Mirrors

section

variable {l l' : Loan} {c c' : SizeClass} {i i' : Fin bucketCount} {a b : Action}

omit [Platform π] in
theorem ptr_ne_of_lies (hs : s.Mirrors g) (hl : l ∈ s.loans) (hl' : l' ∈ s.loans)
    (hp : l.Lies c i) (hp' : l'.Lies c' i') (hne : (c, i) ≠ (c', i')) : l.ptr ≠ l'.ptr := by
  intro hptr
  obtain rfl := List.inj_on_of_nodup_map hs.ptrs_nodup hl hl' hptr
  have hplace := hp.place.symm.trans hp'.place
  obtain ⟨rfl, -, hn⟩ := Place.pooled.inj hplace
  exact hne (by rw [c.bucketSize_injective hn])

/-- Another bucket is as it was after a chunk was given back. -/
theorem back_after_back (hs : s.Mirrors g) (hl : l ∈ s.loans) (hl' : l' ∈ s.loans)
    (hp : l.Lies c i) (hp' : l'.Lies c' i') (hne : (c, i) ≠ (c', i')) (ha : l.Back a)
    (hb : l'.Back b) :
    let e := Handover.back l c i (g.stack c (c.bucketSize i)).head?
    let e' := Handover.back l' c' i' (g.stack c' (c'.bucketSize i')).head?
    (s.hand e).Ready b ∧ (s.hand e).step b = (.returned (.ok ()), (s.hand e).hand e') := by
  intro e e'
  obtain ⟨-, -, d, hd, hmirrors⟩ := hs.back hl hp.padded ha
  obtain rfl : c = d := Regime.pooled.inj (hp.regime.symm.trans hd)
  rw [hs.step_back hl hp ha] at hmirrors
  have hptr := hs.ptr_ne_of_lies hl hl' hp hp' hne
  have hkept : l' ∈ (s.hand e).loans := List.mem_filter.mpr ⟨hl', by simpa using hptr.symm⟩
  have hstep := hmirrors.step_back hkept hp' hb
  rw [Ideal.withStack_other _ _ _ _ hne.symm] at hstep
  exact ⟨(hmirrors.back hkept hp'.padded hb).1, hstep⟩

theorem backs_commute (hs : s.Mirrors g) (hl : l ∈ s.loans) (hl' : l' ∈ s.loans)
    (hp : l.Lies c i) (hp' : l'.Lies c' i') (hne : (c, i) ≠ (c', i')) (ha : l.Back a)
    (hb : l'.Back b) : s.Commutes a b := by
  have hchunks : Span.Disjoint ⟨l.chunk, 8⟩ ⟨l'.chunk, 8⟩ := by
    have hapart := (hs.eq_or_disjoint hl hl').resolve_left fun heq =>
      hs.ptr_ne_of_lies hl hl' hp hp' hne (congrArg Loan.ptr heq)
    rw [hp.place, hp'.place] at hapart
    exact hapart.mono ⟨Nat.le_refl _, Nat.add_le_add_left (c.eight_le_bucketSize i) _⟩
      ⟨Nat.le_refl _, Nat.add_le_add_left (c'.eight_le_bucketSize i') _⟩
  apply Commutes.of_hand ⟨(hs.back hl hp.padded ha).1, hs.step_back hl hp ha⟩
    ⟨(hs.back hl' hp'.padded hb).1, hs.step_back hl' hp' hb⟩
    (hs.back_after_back hl hl' hp hp' hne ha hb) (hs.back_after_back hl' hl hp' hp hne.symm hb ha)
  apply hand_comm hne
  · rfl
  · exact Handover.back_memory_comm c c' i i' _ _ hchunks
  · exact List.filter_comm _ _ _

end

section

variable {l : Loan} {c c' : SizeClass} {i i' : Fin bucketCount} {a b : Action}
  {size align chunk : ℕ} {rest : List ℕ}

theorem mirrors_reuse (hs : s.Mirrors g) (hh : s.machine.Honoured) (hp : a.Pools size align c)
    (ha : Heap.alignmentAllowed align = true) (hi : c.padded size align = c.bucketSize i)
    (htop : g.stack c (c.bucketSize i) = chunk :: rest) :
    (s.hand (.reuse (a.loan size align chunk s.heap.id) c i rest.head? a.zeroes)).Mirrors
      ((g.withStack c (c.bucketSize i) rest).lend size align chunk) := by
  have hstep := hs.step_reuse hp ha hi htop
  rw [← hi] at htop
  obtain ⟨-, -, hmirrors⟩ := hs.reuse hh hp ha htop
  rw [hstep, hi] at hmirrors
  exact hmirrors

theorem back_after_reuse (hs : s.Mirrors g) (hh : s.machine.Honoured)
    (hp : a.Pools size align c) (ha : Heap.alignmentAllowed align = true)
    (hi : c.padded size align = c.bucketSize i)
    (htop : g.stack c (c.bucketSize i) = chunk :: rest) (hl : l ∈ s.loans) (hp' : l.Lies c' i')
    (hne : (c, i) ≠ (c', i')) (hb : l.Back b) :
    let e := Handover.reuse (a.loan size align chunk s.heap.id) c i rest.head? a.zeroes
    let e' := Handover.back l c' i' (g.stack c' (c'.bucketSize i')).head?
    (s.hand e).Ready b ∧ (s.hand e).step b = (.returned (.ok ()), (s.hand e).hand e') := by
  intro e e'
  have hmirrors := hs.mirrors_reuse hh hp ha hi htop
  have hkept : l ∈ (s.hand e).loans := List.mem_cons_of_mem _ hl
  have hstep := hmirrors.step_back hkept hp' hb
  have hstack := g.withStack_other c i rest hne.symm
  rw [Ideal.lend, hstack] at hstep
  exact ⟨(hmirrors.back hkept hp'.padded hb).1, hstep⟩

theorem reuse_after_back (hs : s.Mirrors g) (hp : a.Pools size align c)
    (ha : Heap.alignmentAllowed align = true) (hi : c.padded size align = c.bucketSize i)
    (htop : g.stack c (c.bucketSize i) = chunk :: rest) (hl : l ∈ s.loans) (hp' : l.Lies c' i')
    (hne : (c, i) ≠ (c', i')) (hb : l.Back b) :
    let e := Handover.reuse (a.loan size align chunk s.heap.id) c i rest.head? a.zeroes
    let e' := Handover.back l c' i' (g.stack c' (c'.bucketSize i')).head?
    (s.hand e').Ready a ∧ (s.hand e').step a =
      ((a.loan size align chunk s.heap.id).answer, (s.hand e').hand e) := by
  intro e e'
  obtain ⟨-, -, d, hd, hmirrors⟩ := hs.back hl hp'.padded hb
  obtain rfl : c' = d := Regime.pooled.inj (hp'.regime.symm.trans hd)
  rw [hs.step_back hl hp' hb] at hmirrors
  refine ⟨ready_request hp.asks, hmirrors.step_reuse hp ha hi ?_⟩
  rw [Ideal.withStack_other _ _ _ _ hne]
  exact htop

theorem reuse_commutes (hs : s.Mirrors g) (hh : s.machine.Honoured)
    (hp : a.Pools size align c) (ha : Heap.alignmentAllowed align = true)
    (hi : c.padded size align = c.bucketSize i)
    (htop : g.stack c (c.bucketSize i) = chunk :: rest) (hl : l ∈ s.loans) (hp' : l.Lies c' i')
    (hne : (c, i) ≠ (c', i')) (hb : l.Back b) : s.Commutes a b := by
  have hmirrors := hs.mirrors_reuse hh hp ha hi htop
  have hcount := hs.kept.represents.count_pos htop
  apply Commutes.of_hand ⟨ready_request hp.asks, hs.step_reuse hp ha hi htop⟩
    ⟨(hs.back hl hp'.padded hb).1, hs.step_back hl hp' hb⟩
    (hs.back_after_reuse hh hp ha hi htop hl hp' hne hb)
    (hs.reuse_after_back hp ha hi htop hl hp' hne hb)
  apply hand_comm hne
  · exact (Nat.sub_add_cancel hcount).symm
  · have hsound := hmirrors.loans _ List.mem_cons_self
    have hplace : (a.loan size align chunk s.heap.id).place =
        .pooled c chunk (c.bucketSize i) := by
      change Place.of (Chunk.headerSize + size + align) chunk = _
      rw [← hi, Place.of, hp.regime]
      rfl
    have hdisjoint := (List.pairwise_cons.mp hmirrors.extents_apart).1 l hl
    have hstop := hsound.data_stop_lt.le
    rw [hplace] at hdisjoint hstop
    rw [hp'.place] at hdisjoint
    have hlink : Span.Within ⟨l.chunk, 8⟩ ⟨l.chunk, c'.bucketSize i'⟩ :=
      ⟨Nat.le_refl _, Nat.add_le_add_left (c'.eight_le_bucketSize i') _⟩
    exact Handover.reuse_memory_comm c' i' _ _ _ (hdisjoint.mono (Span.Within.refl _) hlink)
      hsound.after_chunk hstop
  · have hptr := hmirrors.ptr_ne rfl l hl
    exact (List.filter_cons_of_pos (by simpa using hptr.symm)).symm

end

omit [Platform π] in
theorem exists_first (hs : s.Mirrors g) {c : SizeClass} {i : Fin bucketCount}
    (hc : Regime.ofSize (c.bucketSize i) = .pooled c)
    (hfirst : s.heap.firstFree? (c.bucketSize i) ≠ none) :
    ∃ chunk rest, g.stack c (c.bucketSize i) = chunk :: rest := by
  have hr := hs.kept.represents
  rw [Heap.firstFree?, hc] at hfirst
  simp only [BucketTable.bucket_bucketSize (hr.units c)] at hfirst
  exact List.exists_cons_of_ne_nil fun hnil => hfirst (hr.head_none hnil)

end Mirrors

/-- Two steps about different buckets, each of which gives a pooled chunk back or
takes one from its bucket, can be done in either order. -/
structure Separate (s : World π) : Prop where
  backs : ∀ l ∈ s.loans, ∀ l' ∈ s.loans, ∀ {n n' a b}, l.padded? = some n →
    l'.padded? = some n' → n ≠ n' → l.Back a → l'.Back b → s.Commutes a b
  reuses : ∀ {a n}, a.padded? = some n → s.heap.firstFree? n ≠ none →
    (a.Aligned → ∃ ptr, (s.step a).1.ptr? = some ptr) ∧
    ∀ l ∈ s.loans, ∀ {n' b}, l.padded? = some n' → n' ≠ n → l.Back b → s.Commutes a b

theorem Mirrors.separate (hs : s.Mirrors g) (hh : s.machine.Honoured) : s.Separate where
  backs := by
    intro l hl l' hl' n n' a b hn hn' hne ha hb
    obtain ⟨c, i, rfl, hp⟩ := Loan.exists_lies hn
    obtain ⟨c', i', rfl, hp'⟩ := Loan.exists_lies hn'
    apply hs.backs_commute hl hl' hp hp' _ ha hb
    rintro heq
    obtain ⟨rfl, rfl⟩ := Prod.mk.inj heq
    exact hne rfl
  reuses := by
    intro a n hn hfirst
    obtain ⟨size, align, c, hp, rfl⟩ := Action.Pools.of_padded hn
    obtain ⟨i, hi⟩ := Regime.exists_bucket (Chunk.total_pos size align) hp.regime
    have hbucket : c.padded size align = c.bucketSize i := hi
    rw [hbucket] at hfirst
    obtain ⟨chunk, rest, htop⟩ := hs.exists_first (hbucket ▸ hp.ofSize_padded) hfirst
    by_cases ha : Heap.alignmentAllowed align = true
    · constructor
      · intro _
        rw [hs.step_reuse hp ha hi htop]
        exact ⟨_, a.ptr?_loan size align chunk s.heap.id⟩
      · intro l hl n' b hn' hne hb
        obtain ⟨c', i', rfl, hp'⟩ := Loan.exists_lies hn'
        apply hs.reuse_commutes hh hp ha hi htop hl hp' _ hb
        rintro heq
        obtain ⟨rfl, rfl⟩ := Prod.mk.inj heq
        exact hne hi.symm
    · constructor
      · intro haligned
        exact absurd (hp.allowed (haligned (size, align) hp.asks)) ha
      · intro l hl n' b hn' hne hb
        exact .of_disallowed hp.asks ha (hs.back hl hn' hb).1

theorem different_buckets_commute {h : Heap} (hf : h.Fresh) (w : Machine π)
    {acts : List Action} (hv : Valid acts (start h w))
    (hh : (after acts (start h w)).machine.Honoured) : (after acts (start h w)).Separate :=
  ((hf.mirrors w).after_mirrors hv hh).1.separate hh

/-- Loans of four sizes and a free chunk of one of these, which waits in its bucket. -/
def shelf : List Action :=
  [.alloc 16 8, .alloc 40 8, .allocate sheet false, .alloc 3000 16, .alloc 9 8,
    .free 0x100000000008]

/-- The request for three bytes gets the chunk that waits in the bucket of size 32. -/
theorem different_buckets_commute_shelf :
    (after shelf onArena).Separate ∧
    (after shelf onArena).Commutes (.free 0x1000000000E0)
      (.deallocate ⟨0x100000000060, 100, .pooled .small, 7⟩) ∧
    (after shelf onArena).heap.firstFree? 32 = some 0x100000000000 ∧
    ((after shelf onArena).step (.alloc 3 16)).1.ptr? = some 0x100000000010 ∧
    (after shelf onArena).Commutes (.alloc 3 16) (.free 0x100000000028) := by
  have hv : Valid shelf onArena := by decide +kernel
  have hh : (after shelf onArena).machine.Honoured := by decide +kernel
  have hseparate := different_buckets_commute (.plain 7) _ hv hh
  let wide : Loan := ⟨0x1000000000E0, 3000, 16, 0x1000000000D8, none⟩
  let block : Loan := ⟨0x100000000060, 100, 16, 0x100000000058,
    some ⟨0x100000000060, 100, .pooled .small, 7⟩⟩
  let narrow : Loan := ⟨0x100000000028, 40, 8, 0x100000000020, none⟩
  have hwide : wide ∈ (after shelf onArena).loans := by decide +kernel
  have hblock : block ∈ (after shelf onArena).loans := by decide +kernel
  have hnarrow : narrow ∈ (after shelf onArena).loans := by decide +kernel
  have hfree : (after shelf onArena).heap.firstFree? 32 = some 0x100000000000 := by
    decide +kernel
  have hreused : ((after shelf onArena).step (.alloc 3 16)).1.ptr? = some 0x100000000010 := by
    decide +kernel
  have hsome : (after shelf onArena).heap.firstFree? 32 ≠ none := by simp [hfree]
  refine ⟨hseparate, ?_, hfree, hreused, ?_⟩
  · exact hseparate.backs wide hwide block hblock rfl rfl (by decide) .free (.deallocate rfl)
  · exact (hseparate.reuses rfl hsome).2 narrow hnarrow rfl (by decide) .free

end World

end ChunkHeap
