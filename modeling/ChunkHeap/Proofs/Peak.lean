import Mathlib
import ChunkHeap.Proofs.Reuse

/-!
# No chunk is cut before it is needed

A chunk is cut off a region only while all chunks of its size are lent. So the
chunks of a size that were ever cut are as many as were ever lent at one time. A
region is left only for a request that does not fit into the rest of it.
-/

set_option autoImplicit false

namespace ChunkHeap

/-- The size of the chunk, unless it is oversized. -/
def Loan.padded? (l : Loan) : Option ℕ :=
  match Regime.ofSize l.total with
  | .pooled c => some (c.padded l.size l.align)
  | .oversized => none

theorem Loan.map_len_piece (l : Loan) : l.place.piece?.map Span.len = l.padded? := by
  rw [place, Place.of, padded?]
  cases hc : Regime.ofSize l.total <;> rfl

/-- A chunk of `n` bytes is cut off the current region or, if it does not fit
there, off the start of a new one. -/
inductive RegionSource.Cut (r : RegionSource) (n : ℕ) : RegionSource → Span → Prop
  | current {base : ℕ} {bases : List ℕ} (held : r.bases = base :: bases)
      (fits : r.cursor + n ≤ r.regionSize) :
      Cut r n { r with cursor := r.cursor + n } ⟨base + r.cursor, n⟩
  | next {base : ℕ} (full : ∀ b ∈ r.bases.head?, r.regionSize < r.cursor + n) :
      Cut r n { r with bases := base :: r.bases, cursor := n } ⟨base, n⟩

namespace RegionSource.Cut

variable {r r' : RegionSource} {n : ℕ} {t : Span}

theorem len_eq (h : r.Cut n r' t) : t.len = n := by
  cases h <;> rfl

theorem regionSize_eq (h : r.Cut n r' t) : r'.regionSize = r.regionSize := by
  cases h <;> rfl

theorem grown_eq (h : r.Cut n r' t) (hn : 0 < n) : r.grown r' = [t] := by
  cases h with
  | current held fits => exact grown_cut held hn
  | next full => exact grown_extend _ hn

end RegionSource.Cut

/-- The current region, of which a part was cut off, is left for a new one
because `n` bytes do not fit into the rest. -/
structure RegionSource.LeftFor (r r' : RegionSource) (n : ℕ) (part : Span) : Prop where
  current : r.bases.head? = some part.start
  cursor : r.cursor = part.len
  replaced : ∃ base, r'.bases = base :: r.bases
  short : r.regionSize - part.len < n

/-- The parts of the regions after a cut. A part that is no longer the current
one was left by this cut. -/
theorem RegionSource.Cut.parts {r r' : RegionSource} {n : ℕ} {t : Span} {cuts parts : List Span}
    (h : r.Cut n r' t) (hn : n ≤ r.regionSize)
    (hp : Parts r.regionSize r.bases r.cursor cuts parts) :
    ∃ parts', Parts r.regionSize r'.bases r'.cursor (t :: cuts) parts' ∧
      ∀ p ∈ parts'.tail, p ∈ parts.tail ∨ r.LeftFor r' n p := by
  cases h with
  | @current base bases held fits =>
    simp only [held] at hp ⊢
    obtain ⟨rest, rfl⟩ := hp.eq_cons
    exact ⟨_, hp.cut fits, fun p hmem => Or.inl hmem⟩
  | @next base full =>
    have hnew := (hp.enter base).cut (show 0 + n ≤ r.regionSize by omega)
    rw [Nat.zero_add, Nat.add_zero] at hnew
    refine ⟨_, hnew, fun p hmem => ?_⟩
    cases hb : r.bases with
    | nil =>
      have hstarts := hp.starts
      rw [hb, List.map_eq_nil_iff] at hstarts
      simp [hstarts] at hmem
    | cons b bases =>
      rw [hb] at hp
      obtain ⟨rest, rfl⟩ := hp.eq_cons
      have hcursor : r.cursor ≤ r.regionSize := hp.len_le _ List.mem_cons_self
      have hfull := full b (by simp [hb])
      rcases List.mem_cons.mp hmem with rfl | hmem
      · refine Or.inr ⟨by rw [hb]; rfl, rfl, ⟨base, by rw [hb]⟩, ?_⟩
        simp only
        omega
      · exact Or.inl hmem

namespace Ideal

variable {π : Type} [Platform π] {g g' : Ideal} {a : Action} {p p' : Provider π}

def source (g : Ideal) : RegionSource := ⟨g.regionSize, g.bases, g.cursor⟩

/-- A move leaves the regions alone, or it cuts a chunk for a request that finds
its bucket empty. -/
theorem Moves.source_cases (hm : Moves g a p (g', p')) : g'.source = g.source ∨
    ∃ size align c t, a.Pools size align c ∧ g.stack c (c.padded size align) = [] ∧
      g'.stack = g.stack ∧ g.source.Cut (c.padded size align) g'.source t := by
  cases hm with
  | @cut size align base c bases pools empty current fits =>
    exact Or.inr ⟨size, align, c, _, pools, empty, rfl, .current current fits⟩
  | @entered size align base c _ pools empty full asked =>
    exact Or.inr ⟨size, align, c, _, pools, empty, rfl, .next full⟩
  | _ => exact Or.inl rfl

theorem Filed.no_free {c : SizeClass} {n : ℕ} (hf : g.Filed) (hc : Regime.ofSize n = .pooled c)
    (hs : g.stack c n = []) : g.freeSpans.countP (·.len = n) = 0 := by
  rw [List.countP_eq_zero]
  intro t ht hlen
  obtain ⟨c', i, chunk, hmem, rfl⟩ := g.mem_freeSpans.mp ht
  have heq : c'.bucketSize i = n := by simpa using hlen
  have hclass := hf c' _ (List.ne_nil_of_mem hmem)
  rw [heq, hc] at hclass
  obtain rfl : c = c' := Regime.pooled.inj hclass
  rw [heq, hs] at hmem
  simp at hmem

end Ideal

namespace World

variable {π : Type} {s : World π} {g g' : Ideal}

/-- The number of chunks of a size that were ever cut. -/
def cutOf (s : World π) (padded : ℕ) : ℕ := s.cuts.countP (·.len = padded)

/-- The number of loans that have a chunk of a size. -/
def lentOf (s : World π) (padded : ℕ) : ℕ := s.loans.countP (·.padded? = some padded)

theorem Mirrors.cutOf_eq (hs : s.Mirrors g) (n : ℕ) :
    s.cutOf n = s.lentOf n + g.freeSpans.countP (·.len = n) := by
  have hlent : ((s.loans.map Loan.place).filterMap Place.piece?).countP (·.len = n) =
      s.lentOf n := by
    rw [List.countP_filterMap, List.countP_map]
    apply List.countP_congr
    intro l _
    rw [← l.map_len_piece, Function.comp]
    cases l.place.piece? <;> simp
  rw [cutOf, hs.owns.pieces.countP_eq, List.countP_append, hlent]

variable [Platform π] {a : Action}

theorem Mirrors.cut_cases (hs : s.Mirrors g) (hs' : (s.step a).2.Mirrors g')
    (hm : g.Moves a s.machine.provider (g', (s.step a).2.machine.provider)) :
    ((s.step a).2.heap.regions = s.heap.regions ∧ (s.step a).2.cuts = s.cuts) ∨
    ∃ size align c t, a.Pools size align c ∧ g.stack c (c.padded size align) = [] ∧
      g'.stack = g.stack ∧
      s.heap.regions.Cut (c.padded size align) (s.step a).2.heap.regions t ∧
      (s.step a).2.cuts = t :: s.cuts := by
  have hr : s.heap.regions = g.source := hs.kept.represents.regions
  have hr' : (s.step a).2.heap.regions = g'.source := hs'.kept.represents.regions
  rw [s.cuts_step a, hr, hr']
  rcases hm.source_cases with heq | ⟨size, align, c, t, hp, hempty, hstack, hcut⟩
  · rw [heq, RegionSource.grown_self]
    exact Or.inl ⟨rfl, rfl⟩
  · rw [hcut.grown_eq (c.padded_pos size align)]
    exact Or.inr ⟨size, align, c, t, hp, hempty, hstack, hcut, rfl⟩

/-- Either no chunk of a size is cut or all that were cut are lent. -/
theorem Mirrors.cutOf_step (hs : s.Mirrors g) (hf : g.Filed) (hs' : (s.step a).2.Mirrors g')
    (hm : g.Moves a s.machine.provider (g', (s.step a).2.machine.provider)) (n : ℕ) :
    (s.step a).2.cutOf n = max ((s.step a).2.lentOf n) (s.cutOf n) := by
  have hafter := hs'.cutOf_eq n
  rcases hs.cut_cases hs' hm with ⟨-, hcuts⟩ |
    ⟨size, align, c, t, hp, hempty, hstack, hcut, hcuts⟩
  · have hsame : (s.step a).2.cutOf n = s.cutOf n := by rw [cutOf, hcuts, cutOf]
    omega
  · have hcons : (s.step a).2.cutOf n = s.cutOf n + if t.len = n then 1 else 0 := by
      rw [cutOf, hcuts, List.countP_cons, cutOf]
      simp
    rw [hcut.len_eq] at hcons
    by_cases hn : c.padded size align = n
    · -- the bucket was empty and no other class keeps chunks of this size
      have hfree : g'.freeSpans = g.freeSpans := by
        rw [Ideal.freeSpans, Ideal.freeSpans]
        unfold Ideal.shelf
        rw [hstack]
      rw [hfree, ← hn, hf.no_free hp.ofSize_padded hempty, hn] at hafter
      rw [if_pos hn] at hcons
      omega
    · rw [if_neg hn] at hcons
      omega

/-- A region is left for a request whose chunk does not fit into the rest of it. -/
def Leaves (s : World π) (a : Action) (part : Span) : Prop :=
  ∃ size align c, a.Pools size align c ∧
    s.heap.regions.LeftFor (s.step a).2.heap.regions (c.padded size align) part

/-- After a run as many chunks of each size were cut as were lent at one time of
the run, and all regions but the current one were left for want of room. -/
structure Thrifty (s₀ : World π) (acts : List Action) : Prop where
  peak : ∀ padded, IsGreatest {n | ∃ first, first <+: acts ∧ (after first s₀).lentOf padded = n}
    ((after acts s₀).cutOf padded)
  size : (after acts s₀).heap.regions.regionSize = s₀.heap.regions.regionSize
  tails : ∃ parts, Parts s₀.heap.regions.regionSize (after acts s₀).heap.regions.bases
      (after acts s₀).heap.regions.cursor (after acts s₀).cuts parts ∧
    ∀ p ∈ parts.tail, s₀.heap.regions.regionSize - p.len < 2 ^ 20 ∧
      ∃ first a more, acts = first ++ a :: more ∧ (after first s₀).Leaves a p

theorem peaks_concat (s₀ : World π) (acts : List Action) (a : Action) (n : ℕ) :
    {m | ∃ first, first <+: acts ++ [a] ∧ (after first s₀).lentOf n = m} =
      insert (((after acts s₀).step a).2.lentOf n)
        {m | ∃ first, first <+: acts ∧ (after first s₀).lentOf n = m} := by
  ext m
  constructor
  · rintro ⟨first, hfirst, rfl⟩
    rcases List.prefix_concat_iff.mp hfirst with rfl | hfirst
    · left
      rw [after_append]
      rfl
    · exact Or.inr ⟨first, hfirst, rfl⟩
  · rintro (rfl | ⟨first, hfirst, rfl⟩)
    · refine ⟨acts ++ [a], List.prefix_refl _, ?_⟩
      rw [after_append]
      rfl
    · exact ⟨first, hfirst.trans (List.prefix_append _ _), rfl⟩

theorem Mirrors.parts_step (hs : s.Mirrors g) (hs' : (s.step a).2.Mirrors g')
    (hm : g.Moves a s.machine.provider (g', (s.step a).2.machine.provider)) {parts : List Span}
    (hp : Parts s.heap.regions.regionSize s.heap.regions.bases s.heap.regions.cursor s.cuts
      parts) :
    ∃ parts', Parts s.heap.regions.regionSize (s.step a).2.heap.regions.bases
        (s.step a).2.heap.regions.cursor (s.step a).2.cuts parts' ∧
      ∀ p ∈ parts'.tail, p ∈ parts.tail ∨
        (s.heap.regions.regionSize - p.len < 2 ^ 20 ∧ s.Leaves a p) := by
  rcases hs.cut_cases hs' hm with ⟨hregions, hcuts⟩ |
    ⟨size, align, c, t, hpools, -, -, hcut, hcuts⟩
  · rw [hregions, hcuts]
    exact ⟨parts, hp, fun p hmem => Or.inl hmem⟩
  · have hle := hpools.padded_le
    have hroomy : SizeClass.big.maxSize ≤ s.heap.regions.regionSize := by
      rw [hs.kept.represents.regions]
      exact hs.owns.roomy
    obtain ⟨parts', hparts', htail⟩ := hcut.parts (hle.trans hroomy) hp
    rw [hcuts]
    refine ⟨parts', hparts', fun p hmem => (htail p hmem).imp_right fun hleft => ?_⟩
    rw [SizeClass.maxSize_big] at hle
    exact ⟨hleft.short.trans_le hle, size, align, c, hpools, hleft⟩

theorem Thrifty.step {s₀ : World π} {acts : List Action} (h : Thrifty s₀ acts)
    (hs : (after acts s₀).Mirrors g) (hf : g.Filed)
    (hs' : ((after acts s₀).step a).2.Mirrors g')
    (hm : g.Moves a (after acts s₀).machine.provider
      (g', ((after acts s₀).step a).2.machine.provider)) : Thrifty s₀ (acts ++ [a]) := by
  have hafter : after (acts ++ [a]) s₀ = ((after acts s₀).step a).2 := after_append acts [a] s₀
  have hsize := h.size
  obtain ⟨parts, hparts, htails⟩ := h.tails
  rw [← hsize] at hparts htails
  obtain ⟨parts', hparts', hleft⟩ := hs.parts_step hs' hm hparts
  constructor
  · intro n
    rw [peaks_concat, hafter, hs.cutOf_step hf hs' hm]
    exact (h.peak n).insert _
  · rw [hafter, ← hsize]
    rcases hs.cut_cases hs' hm with ⟨hregions, -⟩ | ⟨size, align, c, t, -, -, -, hcut, -⟩
    · rw [hregions]
    · exact hcut.regionSize_eq
  · rw [hafter, ← hsize]
    refine ⟨parts', hparts', fun p hp => ?_⟩
    rcases hleft p hp with hold | hnew
    · obtain ⟨hsmall, first, b, more, rfl, hleaves⟩ := htails p hold
      exact ⟨hsmall, first, b, more ++ [a], by simp, hleaves⟩
    · exact ⟨hnew.1, acts, a, [], rfl, hnew.2⟩

theorem thrifty_start {h : Heap} (hf : h.Fresh) (w : Machine π) : Thrifty (start h w) [] := by
  obtain ⟨id, size, rfl, -⟩ := hf.exists_eq
  constructor
  · intro n
    constructor
    · exact ⟨[], List.prefix_refl _, rfl⟩
    · rintro m ⟨first, hfirst, rfl⟩
      rw [List.prefix_nil.mp hfirst]
      exact Nat.le_refl 0
  · rfl
  · exact ⟨[], .none size, by simp⟩

theorem thrifty_after {h : Heap} (hf : h.Fresh) (w : Machine π) {acts : List Action}
    (hv : Valid acts (start h w)) (hh : (after acts (start h w)).machine.Honoured) :
    ∃ g, (after acts (start h w)).Mirrors g ∧ g.Filed ∧ Thrifty (start h w) acts := by
  -- peaks and tails are about the run from its start, so the run grows at its end
  induction acts using List.reverseRecOn with
  | nil => exact ⟨h.ideal, hf.mirrors w, fun c n hne => absurd rfl hne, thrifty_start hf w⟩
  | append_singleton acts a ih =>
    obtain ⟨hv, ha, -⟩ := (valid_append _ _ _).mp hv
    rw [after_append] at hh ⊢
    obtain ⟨g, hs, hfiled, ht⟩ := ih hv ((grew_after [a] _).honoured hh)
    obtain ⟨g', hs', hm⟩ := hs.step_moves ha hh
    exact ⟨g', hs', hs.filed_step hfiled hm, ht.step hs hfiled hs' hm⟩

theorem cuts_match_peak {h : Heap} (hf : h.Fresh) (w : Machine π) {acts : List Action}
    (hv : Valid acts (start h w)) (hh : (after acts (start h w)).machine.Honoured) :
    Thrifty (start h w) acts ∧
    ∀ a size align c, a.Pools size align c → align.isPowerOfTwo →
      (∃ first, first <+: acts ∧ (after acts (start h w)).lentOf (c.padded size align) <
        (after first (start h w)).lentOf (c.padded size align)) →
      (after acts (start h w)).Reuses a := by
  obtain ⟨g, hs, hfiled, ht⟩ := thrifty_after hf w hv hh
  refine ⟨ht, ?_⟩
  rintro a size align c hp ha ⟨first, hfirst, hlt⟩
  apply hs.reuses hh hp ha
  intro hempty
  have hpeak := (ht.peak (c.padded size align)).2 ⟨first, hfirst, rfl⟩
  have hcut := hs.cutOf_eq (c.padded size align)
  rw [hfiled.no_free hp.ofSize_padded hempty] at hcut
  omega

/-- Five chunks of which a region of the default size has room for four, and the
first of them goes back. -/
def crowd : List Action := List.replicate 5 (.alloc 1000000 8) ++ [.free 0x100000000008]

theorem cuts_match_peak_crowd :
    (after crowd onArena).cutOf 1003520 = 5 ∧ (after crowd onArena).lentOf 1003520 = 4 ∧
    (after crowd onArena).heap.regions.bases.length = 2 ∧ Thrifty onArena crowd ∧
    (after crowd onArena).Reuses (.alloc 1000001 16) := by
  have hcut : (after crowd onArena).cutOf 1003520 = 5 := by decide +kernel
  have hlent : (after crowd onArena).lentOf 1003520 = 4 := by decide +kernel
  have hbases : (after crowd onArena).heap.regions.bases.length = 2 := by decide +kernel
  have hpeak : (after (crowd.take 5) onArena).lentOf 1003520 = 5 := by decide +kernel
  have hpadded : SizeClass.big.padded 1000001 16 = 1003520 := by decide +kernel
  have hv : Valid crowd onArena := by decide +kernel
  have hh : (after crowd onArena).machine.Honoured := by decide +kernel
  -- naming `hh` would evaluate the run in the elaborator
  have hall := cuts_match_peak (.plain 7) _ hv ‹_›
  refine ⟨hcut, hlent, hbases, hall.1, ?_⟩
  apply hall.2 _ 1000001 16 .big ⟨rfl, by decide⟩ ⟨4, rfl⟩
  refine ⟨crowd.take 5, List.take_prefix _ _, ?_⟩
  rw [hpadded]
  change (after crowd onArena).lentOf 1003520 < (after (crowd.take 5) onArena).lentOf 1003520
  rw [hlent, hpeak]
  decide

end World

end ChunkHeap
