import Mathlib
import ChunkHeap.Proofs.Peak
import ChunkHeap.Proofs.Placement
import ChunkHeap.Proofs.Refusals

/-!
# Chunks that were given back are lent again

Chunks that are given back lie on top of the stacks of their sizes. Requests for
just these sizes take them off again, each size in its own order, and meet
neither the regions nor the platform. Then all is as it was before.
-/

set_option autoImplicit false

namespace ChunkHeap

/-- The action gives the loan back, as a pointer or as a block. -/
inductive Loan.Back (l : Loan) : Action → Prop
  | free : Back l (.free l.ptr)
  | deallocate {block : Block} (held : l.block = some block) : Back l (.deallocate block)

/-- The size of the chunk for a request, unless it is oversized. -/
def Action.padded? (a : Action) : Option ℕ :=
  a.asks?.bind fun (size, align) =>
    match Regime.ofSize (Chunk.headerSize + size + align) with
    | .pooled c => some (c.padded size align)
    | .oversized => none

/-- All alignments that are asked for are powers of two. -/
def Action.Aligned (a : Action) : Prop := ∀ q ∈ a.asks?, q.2.isPowerOfTwo

instance (a : Action) : Decidable a.Aligned :=
  inferInstanceAs (Decidable (∀ q ∈ a.asks?, q.2.isPowerOfTwo))

/-- The chunks of one size, given with their sizes. -/
def chunksOf (padded : ℕ) (parcels : List (ℕ × ℕ)) : List ℕ :=
  (parcels.filter (·.1 = padded)).map Prod.snd

theorem chunksOf_cons (padded n chunk : ℕ) (parcels : List (ℕ × ℕ)) :
    chunksOf padded ((n, chunk) :: parcels) =
      if n = padded then chunk :: chunksOf padded parcels else chunksOf padded parcels := by
  by_cases h : n = padded <;> simp [chunksOf, h]

theorem count_chunksOf (padded chunk : ℕ) (parcels : List (ℕ × ℕ)) :
    (chunksOf padded parcels).count chunk = parcels.count (padded, chunk) := by
  induction parcels with
  | nil => rfl
  | cons q parcels ih =>
    obtain ⟨n, x⟩ := q
    rw [chunksOf_cons, List.count_cons, ← ih]
    by_cases hn : n = padded
    · simp [hn, List.count_cons]
    · simp [hn]

theorem Action.Pools.of_padded {a : Action} {n : ℕ} (h : a.padded? = some n) :
    ∃ size align c, a.Pools size align c ∧ c.padded size align = n := by
  obtain ⟨⟨size, align⟩, hasks, hsize⟩ := Option.bind_eq_some_iff.mp h
  cases hc : Regime.ofSize (Chunk.headerSize + size + align) with
  | pooled c =>
    simp only [hc] at hsize
    exact ⟨size, align, c, ⟨hasks, hc⟩, Option.some.inj hsize⟩
  | oversized =>
    simp only [hc] at hsize
    cases hsize

theorem Action.Pools.allowed {a : Action} {size align : ℕ} {c : SizeClass}
    (h : a.Pools size align c) (ha : align.isPowerOfTwo) : Heap.alignmentAllowed align = true := by
  have hle := (Regime.le_maxSize (Chunk.total_pos size align) h.regime).trans c.maxSize_le
  rw [SizeClass.maxSize_big] at hle
  exact Heap.alignmentAllowed_iff.mpr ⟨ha, by unfold Heap.maxAlignment; omega⟩

theorem Loan.place_of_padded {l : Loan} {n : ℕ} (h : l.padded? = some n) :
    ∃ c i, n = c.bucketSize i ∧ Regime.ofSize n = .pooled c ∧ l.place = .pooled c l.chunk n := by
  cases hc : Regime.ofSize l.total with
  | pooled c =>
    obtain ⟨i, hi, hplace⟩ := Place.of_pooled l.total_pos hc
    have hn : l.place = .pooled c l.chunk n := by
      rw [padded?, hc] at h
      rw [place, Place.of, hc, ← Option.some.inj h]
      rfl
    obtain ⟨-, -, rfl⟩ := Place.pooled.inj ((hplace l.chunk).symm.trans hn)
    exact ⟨c, i, rfl, hi, hn⟩
  | oversized =>
    rw [padded?, hc] at h
    cases h

/-- A request takes the chunk on top of the stack of its size. -/
theorem Ideal.alloc_top {π : Type} [Platform π] {g : Ideal} {size align chunk : ℕ} {c : SizeClass}
    {rest : List ℕ} (ha : Heap.alignmentAllowed align = true)
    (hc : Regime.ofSize (Chunk.headerSize + size + align) = .pooled c)
    (hs : g.stack c (c.padded size align) = chunk :: rest) (p : Provider π) :
    g.alloc size align p = (.ok (Chunk.dataAt chunk align),
      (g.withStack c (c.padded size align) rest).lend size align chunk, p) := by
  have htake : g.take (Chunk.headerSize + size + align) p =
      (.ok chunk, g.withStack c (c.padded size align) rest, p) := by
    rw [take, hc]
    simp only [draw]
    rw [← SizeClass.padded, hs]
  exact alloc_taken ha (Regime.lt_wordLimit hc) htake

namespace World

variable {π : Type} {s t : World π} {g k : Ideal}

/-- The padded size and the start of the chunk of a pointer as its header tells. -/
def parcel (s : World π) (ptr : ℕ) : ℕ × ℕ :=
  (Chunk.size s.machine.memory (s.chunkOf ptr), s.chunkOf ptr)

theorem Mirrors.parcel_eq (hs : s.Mirrors g) {l : Loan} (hl : l ∈ s.loans) {c : SizeClass}
    {chunk n : ℕ} (hp : l.place = .pooled c chunk n) : s.parcel l.ptr = (n, chunk) := by
  have hsize := hs.padded_eq hl
  have hchunk := hs.chunkOf_eq hl
  rw [hp] at hsize hchunk
  exact Prod.ext hsize hchunk

theorem Mirrors.returns_back (hs : s.Mirrors g) {l : Loan} (hl : l ∈ s.loans) {a : Action}
    (ha : l.Back a) : a.returns? = some l.ptr := by
  cases ha with
  | free => rfl
  | deallocate held => exact congrArg some (hs.block_eq hl held).1

variable [Platform π]

/-- The chunks that a run hands out. -/
def handed : List Action → World π → List (ℕ × ℕ)
  | [], _ => []
  | a :: acts, s => ((s.step a).1.ptr?.map (s.step a).2.parcel).toList ++ handed acts (s.step a).2

theorem Mirrors.calm_reused (hs : s.Mirrors g) {a : Action} {size align : ℕ} {c : SizeClass}
    (hp : a.Pools size align c) (hstack : g.stack c (c.padded size align) ≠ []) :
    s.machine.Calm (s.step a).2.machine := by
  have hpos := Chunk.total_pos size align
  obtain ⟨i, hi⟩ := Regime.exists_bucket hpos hp.regime
  have hfit := BucketTable.fit_pooled (hs.kept.represents.units c) hp.regime hpos hi
  obtain ⟨chunk, rest, htop⟩ := List.exists_cons_of_ne_nil hstack
  rw [SizeClass.padded, hi] at htop
  have hhead := (hs.kept.represents.head_eq htop).1
  exact calm_request hp.asks (Heap.calm_alloc hp.regime hfit hhead s.machine)

/-- A pooled loan that is given back goes on top of the stack of its size. -/
theorem Mirrors.back (hs : s.Mirrors g) {l : Loan} (hl : l ∈ s.loans) {n : ℕ}
    (hn : l.padded? = some n) {a : Action} (ha : l.Back a) :
    s.Ready a ∧ s.machine.Calm (s.step a).2.machine ∧
    ∃ c, Regime.ofSize n = .pooled c ∧
      (s.step a).2.Mirrors ((g.forget l.ptr).withStack c n (l.chunk :: g.stack c n)) := by
  obtain ⟨c, i, rfl, hc, hplace⟩ := Loan.place_of_padded hn
  have hfree := hs.free_pooled hl hc hplace
  have hideal : (g.free l.ptr s.machine.provider).1 =
      (g.forget l.ptr).withStack c (c.bucketSize i) (l.chunk :: g.stack c (c.bucketSize i)) := by
    rw [Ideal.free, hs.lookup_eq hl, hplace]
    rfl
  cases ha with
  | free =>
    have hready : s.Ready (.free l.ptr) := ⟨l, hl, rfl⟩
    have hmirrors : (s.step (.free l.ptr)).2.Mirrors (g.free l.ptr s.machine.provider).1 :=
      (hs.free_step_follows hready).mirrors
    refine ⟨hready, ?_, c, hc, hideal ▸ hmirrors⟩
    simp only [step, hfree]
    exact ⟨rfl, rfl⟩
  | @deallocate block held =>
    have hready : s.Ready (.deallocate block) := ⟨l, hl, held⟩
    have hptr := (hs.block_eq hl held).1
    have hmirrors : (s.step (.deallocate block)).2.Mirrors
        (g.free block.ptr s.machine.provider).1 := (hs.deallocate_follows hready).mirrors
    rw [hptr, hideal] at hmirrors
    refine ⟨hready, ?_, c, hc, hmirrors⟩
    simp only [step, hs.deallocate_eq hl held, hfree]
    exact ⟨rfl, rfl⟩

/-- A request takes the chunk on top of the stack of its size and leaves the
regions and the platform alone. -/
theorem Mirrors.reuse (hs : s.Mirrors g) (hh : s.machine.Honoured) {a : Action}
    {size align chunk : ℕ} {c : SizeClass} {rest : List ℕ} (hp : a.Pools size align c)
    (ha : Heap.alignmentAllowed align = true)
    (htop : g.stack c (c.padded size align) = chunk :: rest) :
    s.machine.Calm (s.step a).2.machine ∧
    (s.step a).1.ptr? = some (Chunk.dataAt chunk align) ∧
    (s.step a).2.Mirrors ((g.withStack c (c.padded size align) rest).lend size align chunk) := by
  have hcalm := hs.calm_reused hp (by simp [htop])
  have hf := hs.step_follows (ready_request hp.asks) (hcalm.honoured_iff.mpr hh)
  obtain ⟨hstep, hptr, -⟩ := Ideal.step_request (g := g) (p := s.machine.provider) hp.asks
  have halloc := Ideal.alloc_top ha hp.regime htop s.machine.provider
  have hmirrors := hf.mirrors
  rw [hstep, halloc] at hmirrors
  rw [← hf.answer, halloc] at hptr
  exact ⟨hcalm, hptr, hmirrors⟩

/-- `t` is `s` with some chunks on top of the stacks of their sizes. -/
structure Topped (s t : World π) (g k : Ideal) (tops : ℕ → List ℕ) : Prop where
  mirrors : t.Mirrors k
  calm : s.machine.Calm t.machine
  source : k.source = g.source
  oversized : k.oversized = g.oversized
  stack : ∀ c n, k.stack c n =
    (if Regime.ofSize n = .pooled c then tops n else []) ++ g.stack c n

namespace Topped

variable {tops : ℕ → List ℕ}

omit [Platform π] in
theorem refl (hs : s.Mirrors g) : Topped s s g g fun _ => [] where
  mirrors := hs
  calm := .refl _
  source := rfl
  oversized := rfl
  stack := by simp

omit [Platform π] in
/-- One stack changes above what was there from the start. -/
theorem withStack (h : Topped s t g k tops) {c : SizeClass} {n : ℕ}
    (hc : Regime.ofSize n = .pooled c) (chunks : List ℕ) (c' : SizeClass) (n' : ℕ) :
    (k.withStack c n (chunks ++ g.stack c n)).stack c' n' =
      (if Regime.ofSize n' = .pooled c' then Function.update tops n chunks n' else []) ++
        g.stack c' n' := by
  by_cases hn : n' = n
  · subst hn
    by_cases hc' : c' = c
    · simp [Ideal.withStack, hc', hc]
    · have hne : ¬ c = c' := fun heq => hc' heq.symm
      simp [Ideal.withStack, hc', hne, hc, h.stack c']
  · simp [Ideal.withStack, hn, h.stack c']

theorem push (h : Topped s t g k tops) {l : Loan} (hl : l ∈ t.loans) {n : ℕ}
    (hn : l.padded? = some n) {a : Action} (ha : l.Back a) :
    t.Ready a ∧ ∃ k', Topped s (t.step a).2 g k' (Function.update tops n (l.chunk :: tops n)) := by
  obtain ⟨hready, hcalm, c, hc, hmirrors⟩ := h.mirrors.back hl hn ha
  have hstack : l.chunk :: k.stack c n = (l.chunk :: tops n) ++ g.stack c n := by
    rw [h.stack, if_pos hc, List.cons_append]
  rw [hstack] at hmirrors
  exact ⟨hready, _, hmirrors, h.calm.trans hcalm, h.source, h.oversized, h.withStack hc _⟩

theorem pop (h : Topped s t g k tops) (hh : s.machine.Honoured) {a : Action} {n chunk : ℕ}
    {rest : List ℕ} (hn : a.padded? = some n) (ha : a.Aligned) (htop : tops n = chunk :: rest) :
    t.Ready a ∧ ∃ ptr k', (t.step a).1.ptr? = some ptr ∧ (t.step a).2.parcel ptr = (n, chunk) ∧
      Topped s (t.step a).2 g k' (Function.update tops n rest) := by
  obtain ⟨size, align, c, hp, rfl⟩ := Action.Pools.of_padded hn
  have hallowed := hp.allowed (ha (size, align) hp.asks)
  have hstack : k.stack c (c.padded size align) =
      chunk :: (rest ++ g.stack c (c.padded size align)) := by
    rw [h.stack, if_pos hp.ofSize_padded, htop]
    rfl
  obtain ⟨hcalm, hptr, hmirrors⟩ :=
    h.mirrors.reuse (h.calm.honoured_iff.mpr hh) hp hallowed hstack
  obtain ⟨l, others, hl, hlptr, hplace⟩ := hmirrors.exists_lent rfl
  have hpooled : l.place = .pooled c chunk (c.padded size align) := by
    rw [hplace, Place.of, hp.regime]
    rfl
  have hparcel := hmirrors.parcel_eq (hl ▸ List.mem_cons_self) hpooled
  rw [hlptr] at hparcel
  exact ⟨ready_request hp.asks, _, _, hptr, hparcel, hmirrors, h.calm.trans hcalm, h.source,
    h.oversized, h.withStack hp.ofSize_padded rest⟩

/-- Chunks given back one after the other lie on their stacks the other way round. -/
theorem frees {gone : List Loan} {frees : List Action} (h : Topped s t g k tops)
    (hb : List.Forall₂ Loan.Back gone frees) (hl : ∀ l ∈ gone, l ∈ t.loans) (hn : gone.Nodup)
    (hp : ∀ l ∈ gone, l.padded? ≠ none) :
    Valid frees t ∧ ∃ k', Topped s (after frees t) g k' fun n =>
      ((gone.filter (·.padded? = some n)).map Loan.chunk).reverse ++ tops n := by
  induction hb generalizing t k tops with
  | nil => exact ⟨trivial, k, h⟩
  | @cons l a gone frees ha hb ih =>
    obtain ⟨hfresh, hn⟩ := List.nodup_cons.mp hn
    obtain ⟨hfirst, hrest⟩ := List.forall_mem_cons.mp hl
    obtain ⟨hpl, hp⟩ := List.forall_mem_cons.mp hp
    obtain ⟨n, hsize⟩ := Option.ne_none_iff_exists'.mp hpl
    obtain ⟨hready, k', hpush⟩ := h.push hfirst hsize ha
    have hkept : ∀ l' ∈ gone, l' ∈ (t.step a).2.loans := by
      intro l' hl'
      apply mem_loans_step (hrest l' hl')
      intro hsame
      have hptr : l.ptr = l'.ptr :=
        Option.some.inj ((h.mirrors.returns_back hfirst ha).symm.trans hsame)
      have heq := List.inj_on_of_nodup_map h.mirrors.ptrs_nodup hfirst (hrest l' hl') hptr
      exact hfresh (heq ▸ hl')
    have htops : ∀ n', (((l :: gone).filter (·.padded? = some n')).map Loan.chunk).reverse ++
        tops n' = ((gone.filter (·.padded? = some n')).map Loan.chunk).reverse ++
          Function.update tops n (l.chunk :: tops n) n' := by
      intro n'
      by_cases hn' : n' = n
      · simp [hn', hsize]
      · simp [hn', hsize, Ne.symm hn']
    obtain ⟨hvalid, k'', hall⟩ := ih hpush hkept hn hp
    exact ⟨⟨hready, hvalid⟩, k'', (funext htops) ▸ hall⟩

/-- Requests for the sizes of the chunks on top take them off in order. -/
theorem requests {requests : List Action} (h : Topped s t g k tops) (hh : s.machine.Honoured)
    (ha : ∀ a ∈ requests, a.Aligned) (hp : ∀ a ∈ requests, a.padded? ≠ none)
    (hcount : ∀ n, (tops n).length = (requests.map Action.padded?).count (some n)) :
    Valid requests t ∧ (∀ x ∈ trace requests t, ∃ ptr, x.1.ptr? = some ptr) ∧
    (∀ n, chunksOf n (handed requests t) = tops n) ∧
    ∃ k', Topped s (after requests t) g k' fun _ => [] := by
  induction requests generalizing t k tops with
  | nil =>
    have hnone : tops = fun _ => [] := funext fun n => List.eq_nil_of_length_eq_zero (hcount n)
    subst hnone
    exact ⟨trivial, by simp [trace], fun n => rfl, k, h⟩
  | cons a requests ih =>
    obtain ⟨hfirst, hrest⟩ := List.forall_mem_cons.mp ha
    obtain ⟨hpa, hp⟩ := List.forall_mem_cons.mp hp
    obtain ⟨n, hsize⟩ := Option.ne_none_iff_exists'.mp hpa
    simp only [List.map_cons, hsize, List.count_cons] at hcount
    obtain ⟨chunk, rest, htop⟩ : ∃ chunk rest, tops n = chunk :: rest := by
      have hlen := hcount n
      simp only [beq_self_eq_true, if_true] at hlen
      exact List.exists_cons_of_length_eq_add_one hlen
    obtain ⟨hready, ptr, k', hptr, hparcel, hpop⟩ := h.pop hh hsize hfirst htop
    have hcount' : ∀ n', (Function.update tops n rest n').length =
        (requests.map Action.padded?).count (some n') := by
      intro n'
      have hlen := hcount n'
      by_cases hn' : n' = n
      · subst hn'
        simpa [htop] using hlen
      · simpa [hn', Ne.symm hn'] using hlen
    obtain ⟨hvalid, hserved, hchunks, hend⟩ := ih hpop hrest hp hcount'
    refine ⟨⟨hready, hvalid⟩, ?_, fun n' => ?_, hend⟩
    · rw [trace, List.forall_mem_cons]
      exact ⟨⟨ptr, hptr⟩, hserved⟩
    · rw [handed, hptr, Option.map_some, hparcel, Option.toList_some, List.singleton_append,
        chunksOf_cons, hchunks]
      by_cases hn' : n' = n
      · simp [hn', htop]
      · simp [hn', Ne.symm hn']

omit [Platform π] in
theorem stats_eq (h : Topped s t g k fun _ => []) (hs : s.Mirrors g) :
    t.heap.stats = s.heap.stats := by
  obtain ⟨hsize, hbases, hcursor⟩ := RegionSource.mk.inj h.source
  have hcount : ∀ c, k.freeCount c = g.freeCount c :=
    fun c => Finset.sum_congr rfl fun i _ => by simp [h.stack]
  rw [hs.stats_eq, h.mirrors.stats_eq]
  simp only [Ideal.stats, hsize, hbases, hcursor, h.oversized, hcount]

omit [Platform π] in
theorem chains (h : Topped s t g k fun _ => []) (hs : s.Mirrors g) (c : SizeClass)
    (i : Fin bucketCount) :
    ∃ chunks, Chunk.Chain s.machine.memory ((s.heap.tables c).heads.get i) chunks ∧
      Chunk.Chain t.machine.memory ((t.heap.tables c).heads.get i) chunks := by
  have hchain := h.mirrors.kept.represents.chains c i
  rw [h.stack, ite_self, List.nil_append] at hchain
  exact ⟨_, hs.kept.represents.chains c i, hchain⟩

end Topped

/-- Loans are given back and requests take their chunks again, and all is as it was. -/
structure Recycled (s : World π) (gone : List Loan) (frees requests : List Action) : Prop where
  valid : Valid (frees ++ requests) s
  served : ∀ x ∈ trace requests (after frees s), ∃ ptr, x.1.ptr? = some ptr
  chunks : (handed requests (after frees s)).Perm (gone.map fun l => s.parcel l.ptr)
  reversed : ∀ padded, chunksOf padded (handed requests (after frees s)) =
    (chunksOf padded (gone.map fun l => s.parcel l.ptr)).reverse
  provider : (after (frees ++ requests) s).machine.provider = s.machine.provider
  regions : (after (frees ++ requests) s).heap.regions = s.heap.regions
  stats : (after (frees ++ requests) s).heap.stats = s.heap.stats
  buckets : ∀ c i, ∃ chunks,
    Chunk.Chain s.machine.memory ((s.heap.tables c).heads.get i) chunks ∧
    Chunk.Chain (after (frees ++ requests) s).machine.memory
      (((after (frees ++ requests) s).heap.tables c).heads.get i) chunks

omit [Platform π] in
theorem Mirrors.chunksOf_parcels (hs : s.Mirrors g) {gone : List Loan}
    (hl : ∀ l ∈ gone, l ∈ s.loans) (hp : ∀ l ∈ gone, l.padded? ≠ none) (n : ℕ) :
    chunksOf n (gone.map fun l => s.parcel l.ptr) =
      (gone.filter (·.padded? = some n)).map Loan.chunk := by
  induction gone with
  | nil => rfl
  | cons l gone ih =>
    obtain ⟨hfirst, hl⟩ := List.forall_mem_cons.mp hl
    obtain ⟨hpl, hp⟩ := List.forall_mem_cons.mp hp
    obtain ⟨m, hsize⟩ := Option.ne_none_iff_exists'.mp hpl
    obtain ⟨c, i, -, -, hplace⟩ := Loan.place_of_padded hsize
    rw [List.map_cons, hs.parcel_eq hfirst hplace, chunksOf_cons, ih hl hp]
    by_cases hm : m = n <;> simp [hsize, hm]

theorem Mirrors.recycled (hs : s.Mirrors g) (hh : s.machine.Honoured) {gone : List Loan}
    {frees requests : List Action} (hl : ∀ l ∈ gone, l ∈ s.loans) (hn : gone.Nodup)
    (hp : ∀ l ∈ gone, l.padded? ≠ none) (hb : List.Forall₂ Loan.Back gone frees)
    (ha : ∀ a ∈ requests, a.Aligned)
    (hsame : (requests.map Action.padded?).Perm (gone.map Loan.padded?)) :
    s.Recycled gone frees requests := by
  have hpools : ∀ a ∈ requests, a.padded? ≠ none := by
    intro a hmem
    obtain ⟨l, hl, hla⟩ := List.mem_map.mp (hsame.mem_iff.mp (List.mem_map_of_mem hmem))
    exact hla ▸ hp l hl
  have hcount : ∀ n, ((gone.filter (·.padded? = some n)).map Loan.chunk).reverse.length =
      (requests.map Action.padded?).count (some n) := by
    intro n
    rw [hsame.count_eq, List.length_reverse, List.length_map,
      ← List.countP_eq_length_filter, List.count_eq_countP, List.countP_map]
    exact List.countP_congr fun l _ => by simp
  obtain ⟨hvalid, k, htopped⟩ := (Topped.refl hs).frees hb hl hn hp
  simp only [List.append_nil] at htopped
  obtain ⟨hvalid', hserved, hchunks, k', hend⟩ := htopped.requests hh ha hpools hcount
  have hreversed : ∀ n, chunksOf n (handed requests (after frees s)) =
      (chunksOf n (gone.map fun l => s.parcel l.ptr)).reverse := by
    intro n
    rw [hchunks, hs.chunksOf_parcels hl hp]
  have hafter := after_append frees requests s
  constructor
  · exact (valid_append _ _ _).mpr ⟨hvalid, hvalid'⟩
  · exact hserved
  · rw [List.perm_iff_count]
    rintro ⟨n, x⟩
    rw [← count_chunksOf, hreversed, List.count_reverse, count_chunksOf]
  · exact hreversed
  · rw [hafter]
    exact hend.calm.provider
  · rw [hafter, hend.mirrors.kept.represents.regions, hs.kept.represents.regions]
    exact hend.source
  · rw [hafter]
    exact hend.stats_eq hs
  · rw [hafter]
    exact hend.chains hs

theorem recycling_permutes {h : Heap} (hf : h.Fresh) (w : Machine π) {acts : List Action}
    (hv : Valid acts (start h w)) (hh : (after acts (start h w)).machine.Honoured)
    {gone : List Loan} {frees requests : List Action}
    (hl : ∀ l ∈ gone, l ∈ (after acts (start h w)).loans) (hn : gone.Nodup)
    (hp : ∀ l ∈ gone, l.padded? ≠ none) (hb : List.Forall₂ Loan.Back gone frees)
    (ha : ∀ a ∈ requests, a.Aligned)
    (hsame : (requests.map Action.padded?).Perm (gone.map Loan.padded?)) :
    (after acts (start h w)).Recycled gone frees requests :=
  ((hf.mirrors w).after_mirrors hv hh).1.recycled hh hl hn hp hb ha hsame

/-- Three loans of one size, of which the second is a block, one of another size
and an oversized one. -/
def lodgers : List Action :=
  [.alloc 16 8, .allocate ⟨20, 4, ⟨2, rfl⟩, by decide⟩ false, .alloc 2000000 64, .alloc 3000 16,
    .alloc 9 8]

/-- Some of them, in the order in which they go. -/
def leavers : List Loan :=
  [⟨0x100000000008, 16, 8, 0x100000000000, none⟩, ⟨0x100000000050, 3000, 16, 0x100000000040, none⟩,
    ⟨0x100000000028, 20, 4, 0x100000000020, some ⟨0x100000000028, 20, .pooled .small, 7⟩⟩]

def departures : List Action :=
  [.free 0x100000000008, .free 0x100000000050,
    .deallocate ⟨0x100000000028, 20, .pooled .small, 7⟩]

def arrivals : List Action :=
  [.alloc 1 16, .allocate ⟨3000, 64, ⟨6, rfl⟩, by decide⟩ true, .alloc 23 1]

theorem recycling_permutes_lodgers :
    handed arrivals (after departures (after lodgers onArena)) =
      [(32, 0x100000000020), (3072, 0x100000000040), (32, 0x100000000000)] ∧
    (after lodgers onArena).Recycled leavers departures arrivals := by
  have hhanded : handed arrivals (after departures (after lodgers onArena)) =
      [(32, 0x100000000020), (3072, 0x100000000040), (32, 0x100000000000)] := by decide +kernel
  have hv : Valid lodgers onArena := by decide +kernel
  have hh : (after lodgers onArena).machine.Honoured := by decide +kernel
  have hl : ∀ l ∈ leavers, l ∈ (after lodgers onArena).loans := by decide +kernel
  have hn : leavers.Nodup := by decide
  have hp : ∀ l ∈ leavers, l.padded? ≠ none := by decide
  have hb : List.Forall₂ Loan.Back leavers departures :=
    .cons .free (.cons .free (.cons (.deallocate rfl) .nil))
  have ha : ∀ a ∈ arrivals, a.Aligned := by decide
  have hsame : (arrivals.map Action.padded?).Perm (leavers.map Loan.padded?) := by decide
  exact ⟨hhanded, recycling_permutes (.plain 7) _ hv hh hl hn hp hb ha hsame⟩

end World

end ChunkHeap
