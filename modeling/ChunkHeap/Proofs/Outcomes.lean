import Mathlib
import ChunkHeap.Proofs.Refusals

/-!
# How an allocation ends

The alignment is looked at first, then the bytes that are needed and last the
platform, which is asked only if neither the bucket nor the region has a chunk.
So the outcome of an allocation can be told from its numbers, from what is in
stock and from what the platform would say.

An oversized chunk has its length in front of it. If only these bytes leave the
word range, the refusal is told in terms of the chunk and not of the request.
-/

set_option autoImplicit false

namespace ChunkHeap

namespace Heap

/-- Alignments that a request may have. -/
def Supports (align : ℕ) : Prop := align.isPowerOfTwo ∧ align ≤ 2 ^ 32

/-- The bytes that a request needs in one piece. -/
def needed (size align : ℕ) : ℕ :=
  match Regime.ofSize (Chunk.headerSize + size + align) with
  | .pooled _ => Chunk.headerSize + size + align
  | .oversized => Chunk.headerSize + size + align + Chunk.oversizedPrefix

/-- The size and the alignment that a refusal for want of addresses reports. -/
def reported (size align : ℕ) : ℕ × ℕ :=
  if wordLimit ≤ Chunk.headerSize + size + align then (size, align)
  else (Chunk.headerSize + size + align, 1)

theorem supports_iff {align : ℕ} : Supports align ↔ alignmentAllowed align = true :=
  alignmentAllowed_iff.symm

variable {size align : ℕ}

theorem needed_pooled {c : SizeClass}
    (hc : Regime.ofSize (Chunk.headerSize + size + align) = .pooled c) :
    needed size align = Chunk.headerSize + size + align := by
  rw [needed, hc]

theorem needed_oversized (hc : Regime.ofSize (Chunk.headerSize + size + align) = .oversized) :
    needed size align = Chunk.headerSize + size + align + Chunk.oversizedPrefix := by
  rw [needed, hc]

theorem le_needed (size align : ℕ) : Chunk.headerSize + size + align ≤ needed size align := by
  cases hc : Regime.ofSize (Chunk.headerSize + size + align) with
  | pooled c => exact (needed_pooled hc).ge
  | oversized => exact (needed_oversized hc).ge.trans' (Nat.le_add_right _ _)

/-- Only an oversized chunk needs more bytes than its own. -/
theorem oversized_of_needed (hn : wordLimit ≤ needed size align)
    (hfits : ¬ wordLimit ≤ Chunk.headerSize + size + align) :
    Regime.ofSize (Chunk.headerSize + size + align) = .oversized := by
  cases hc : Regime.ofSize (Chunk.headerSize + size + align) with
  | pooled c => exact absurd (needed_pooled hc ▸ hn) hfits
  | oversized => rfl

variable {π : Type} [Platform π]

theorem alloc_misaligned (ha : ¬ Supports align) (h : Heap) (w : Machine π) :
    h.alloc size align w = (.error (.refused (.invalidAlignment align)), h, w) := by
  rw [supports_iff, Bool.not_eq_true] at ha
  simp [alloc, ha]

theorem alloc_overlong (ha : Supports align) (hn : wordLimit ≤ needed size align) (h : Heap)
    (w : Machine π) : h.alloc size align w = (.error (.refused
      (.sizeOverflow (reported size align).1 (reported size align).2)), h, w) := by
  rw [supports_iff] at ha
  by_cases hlong : wordLimit ≤ Chunk.headerSize + size + align
  · simp [alloc, ha, totalSize_error hlong, reported, hlong]
  · have hfits := Nat.lt_of_not_le hlong
    have hover := oversized_of_needed hn hlong
    rw [needed_oversized hover] at hn
    simp [alloc, ha, totalSize_eq hfits, takeChunk, hover, takeOversized, hn, reported, hlong]

end Heap

/-- The platform refuses a reservation. -/
def Machine.Refuses {π : Type} [Platform π] (w : Machine π) (len : ℕ) : Prop :=
  (w.reserve len).1 = none

namespace World

variable {π : Type} [Platform π] {s : World π} {g : Ideal} {size align : ℕ}

/-- A request takes a reservation of so many bytes. -/
inductive Asks (s : World π) (size align : ℕ) : ℕ → Prop
  | oversized (regime : Regime.ofSize (Chunk.headerSize + size + align) = .oversized) :
      Asks s size align (size + align + 16)
  | region {c : SizeClass} (regime : Regime.ofSize (Chunk.headerSize + size + align) = .pooled c)
      (unstocked : ¬ s.Stocked c size align) : Asks s size align s.heap.regions.regionSize

/-- The outcome of an allocation, given the numbers that it reports if there are
not enough addresses. -/
structure Decided (s : World π) (size align : ℕ) (numbers : ℕ × ℕ) : Prop where
  misaligned : ∀ k, (s.heap.alloc size align s.machine).1 =
    .error (.refused (.invalidAlignment k)) ↔ ¬ Heap.Supports align ∧ k = align
  overlong : ∀ n k, (s.heap.alloc size align s.machine).1 =
    .error (.refused (.sizeOverflow n k)) ↔
      Heap.Supports align ∧ wordLimit ≤ Heap.needed size align ∧ (n, k) = numbers
  unmet : ∀ n, (s.heap.alloc size align s.machine).1 = .error (.refused (.outOfMemory n)) ↔
    Heap.Supports align ∧ Heap.needed size align < wordLimit ∧ s.Asks size align n ∧
      s.machine.Refuses n
  met : (∃ ptr, (s.heap.alloc size align s.machine).1 = .ok ptr) ↔
    Heap.Supports align ∧ Heap.needed size align < wordLimit ∧
      ∀ n, s.Asks size align n → ¬ s.machine.Refuses n
  unasked : ¬ Heap.Supports align ∨ wordLimit ≤ Heap.needed size align →
    (s.heap.alloc size align s.machine).2 = (s.heap, s.machine)

omit [Platform π] in
theorem Asks.unique {n n' : ℕ} (h : s.Asks size align n) (h' : s.Asks size align n') :
    n' = n := by
  cases h with
  | oversized regime =>
    cases h' with
    | oversized => rfl
    | region regime' => cases regime.symm.trans regime'
  | region regime =>
    cases h' with
    | oversized regime' => cases regime.symm.trans regime'
    | region => rfl

namespace Mirrors

theorem alloc_result (hs : s.Mirrors g)
    (hh : (s.heap.alloc size align s.machine).2.2.Honoured) :
    (s.heap.alloc size align s.machine).1 =
      (g.alloc size align s.machine.provider).1.mapError .refused := by
  have hl := alloc_lent hs hh
  generalize s.heap.alloc size align s.machine = x at hl ⊢
  generalize g.alloc size align s.machine.provider = y at hl ⊢
  cases hl <;> rfl

omit [Platform π] in
theorem unstocked (hs : s.Mirrors g) {c : SizeClass}
    (hc : Regime.ofSize (Chunk.headerSize + size + align) = .pooled c)
    (hst : ¬ s.Stocked c size align) :
    g.stack c (c.padded size align) = [] ∧ g.room (c.padded size align) = none := by
  have hr := hs.kept.represents
  obtain ⟨hbucket, hregion⟩ := not_or.mp hst
  constructor
  · by_contra hstack
    obtain ⟨chunk, rest, htop⟩ := List.exists_cons_of_ne_nil hstack
    obtain ⟨i, hi⟩ := Regime.exists_bucket (Chunk.total_pos size align) hc
    have hpadded : c.padded size align = c.bucketSize i := hi
    apply hbucket
    use i
    rw [hpadded] at htop ⊢
    rw [(hr.head_eq htop).1]
    exact ⟨BucketTable.bucket_bucketSize (hr.units c) i, Option.some_ne_none chunk⟩
  · rw [hr.regions] at hregion
    cases hbases : g.bases with
    | nil => rw [Ideal.room, hbases]
    | cons base rest =>
      rw [Ideal.room, hbases]
      apply if_neg
      intro hfits
      exact hregion ⟨by simp [hbases], hfits⟩

/-- A request that takes a reservation ends as the platform answers. -/
theorem alloc_asks (hs : s.Mirrors g) (hh : (s.heap.alloc size align s.machine).2.2.Honoured)
    (ha : Heap.Supports align) (hfits : Heap.needed size align < wordLimit) {n : ℕ}
    (hn : s.Asks size align n) :
    (s.machine.Refuses n ∧
      (s.heap.alloc size align s.machine).1 = .error (.refused (.outOfMemory n))) ∨
    (¬ s.machine.Refuses n ∧ ∃ ptr, (s.heap.alloc size align s.machine).1 = .ok ptr) := by
  rw [Heap.supports_iff] at ha
  rw [hs.alloc_result hh]
  cases hn with
  | oversized regime =>
    rw [Heap.needed_oversized regime] at hfits
    have hlen : Chunk.headerSize + size + align + Chunk.oversizedPrefix = size + align + 16 := by
      simp only [Chunk.headerSize, Chunk.oversizedPrefix]
      omega
    have hsmall : Chunk.headerSize + size + align < wordLimit := by omega
    rw [hlen] at hfits
    have htake : g.take (Chunk.headerSize + size + align) s.machine.provider =
        g.takeOversized (Chunk.headerSize + size + align) s.machine.provider := by
      rw [Ideal.take, regime]
    simp only [Ideal.takeOversized, hlen, if_neg (Nat.not_le.mpr hfits)] at htake
    rcases s.machine.reserve_cases (size + align + 16) with
      ⟨w', hw, hp, -⟩ | ⟨base, contents, w', hw, hp, -⟩
    · rw [hp] at htake
      rw [Ideal.alloc_refused ha hsmall htake, Machine.Refuses, hw]
      exact Or.inl ⟨rfl, rfl⟩
    · rw [hp] at htake
      rw [Ideal.alloc_taken ha hsmall htake, Machine.Refuses, hw]
      exact Or.inr ⟨Option.some_ne_none base, _, rfl⟩
  | @region c regime unstocked =>
    rw [Heap.needed_pooled regime] at hfits
    obtain ⟨hstack, hroom⟩ := hs.unstocked regime unstocked
    have htake : g.take (Chunk.headerSize + size + align) s.machine.provider =
        g.cut (c.padded size align) s.machine.provider := by
      rw [Ideal.take, regime]
      simp only [Ideal.draw]
      rw [← SizeClass.padded, hstack]
    have hsize : s.heap.regions.regionSize = g.regionSize := by rw [hs.kept.represents.regions]
    simp only [Ideal.cut, hroom] at htake
    rw [hsize]
    rcases s.machine.reserve_cases g.regionSize with
      ⟨w', hw, hp, -⟩ | ⟨base, contents, w', hw, hp, -⟩
    · rw [hp] at htake
      rw [Ideal.alloc_refused ha hfits htake, Machine.Refuses, hw]
      exact Or.inl ⟨rfl, rfl⟩
    · rw [hp] at htake
      rw [Ideal.alloc_taken ha hfits htake, Machine.Refuses, hw]
      exact Or.inr ⟨Option.some_ne_none base, _, rfl⟩

theorem alloc_stocked (hs : s.Mirrors g) (hh : (s.heap.alloc size align s.machine).2.2.Honoured)
    (ha : Heap.Supports align) {c : SizeClass}
    (hc : Regime.ofSize (Chunk.headerSize + size + align) = .pooled c)
    (hst : s.Stocked c size align) :
    ∃ ptr, (s.heap.alloc size align s.machine).1 = .ok ptr := by
  rw [← s.machine_alloc] at hh
  obtain ⟨⟨ptr, hptr⟩, -⟩ := hs.stocked hh ⟨rfl, hc⟩ ha.1 hst
  simp only [step] at hptr
  split at hptr
  · cases hptr
  · next heq => exact ⟨_, congrArg Prod.fst heq⟩

theorem decided (hs : s.Mirrors g) (hh : (s.heap.alloc size align s.machine).2.2.Honoured) :
    s.Decided size align (Heap.reported size align) := by
  by_cases ha : Heap.Supports align
  · by_cases hn : wordLimit ≤ Heap.needed size align
    · have halloc := Heap.alloc_overlong ha hn s.heap s.machine
      constructor <;> simp [halloc, ha, hn, Nat.not_lt.mpr hn, eq_comm, Prod.ext_iff]
    · have hfits := Nat.lt_of_not_le hn
      -- the platform is asked or it is not, and if so for one length only
      by_cases hasks : ∃ n, s.Asks size align n
      · obtain ⟨n, hasks⟩ := hasks
        have hunique : ∀ m, s.Asks size align m ↔ m = n :=
          fun m => ⟨fun h => hasks.unique h, fun h => h ▸ hasks⟩
        rcases hs.alloc_asks hh ha hfits hasks with ⟨hrefuses, hx⟩ | ⟨hgrants, ptr, hx⟩
        · constructor <;> simp [hx, ha, hfits, hn, hunique, hrefuses]
          case unmet =>
            intro m
            exact ⟨fun h => ⟨h.symm, h ▸ hrefuses⟩, fun h => h.1.symm⟩
        · constructor <;> simp [hx, ha, hfits, hn, hunique, hgrants]
      · have hnone := not_exists.mp hasks
        obtain ⟨ptr, hx⟩ : ∃ ptr, (s.heap.alloc size align s.machine).1 = .ok ptr := by
          cases hc : Regime.ofSize (Chunk.headerSize + size + align) with
          | pooled c =>
            by_cases hst : s.Stocked c size align
            · exact hs.alloc_stocked hh ha hc hst
            · exact absurd (.region hc hst) (hnone _)
          | oversized => exact absurd (.oversized hc) (hnone _)
        constructor <;> simp [hx, ha, hfits, hn, hnone]
  · have halloc : s.heap.alloc size align s.machine = _ := Heap.alloc_misaligned ha _ _
    constructor <;> simp [halloc, ha, eq_comm]

end Mirrors

theorem allocation_outcomes {h : Heap} (hf : h.Fresh) (w : Machine π) {acts : List Action}
    (hv : Valid acts (start h w)) {size align : ℕ}
    (hh : ((after acts (start h w)).step (.alloc size align)).2.machine.Honoured) :
    (after acts (start h w)).Decided size align (Heap.reported size align) := by
  have hs := ((hf.mirrors w).after_mirrors hv ((grew_after [_] _).honoured hh)).1
  rw [machine_alloc] at hh
  exact hs.decided hh

/-- An alignment that is no power of two, a size for which there are no addresses,
one whose chunk alone would have them, one that the arena refuses and one that is
met. -/
def trials : List (ℕ × ℕ) :=
  [(5, 3), (2 ^ 64 - 1, 8), (2 ^ 64 - 78, 64), (2 ^ 36, 8), (100, 8)]

theorem allocation_outcomes_trials :
    trials.map (fun q => ((after errands onArena).heap.alloc q.1 q.2
        (after errands onArena).machine).1) =
      [.error (.refused (.invalidAlignment 3)), .error (.refused (.sizeOverflow (2 ^ 64 - 1) 8)),
        .error (.refused (.sizeOverflow (2 ^ 64 - 6) 1)),
        .error (.refused (.outOfMemory (2 ^ 36 + 24))), .ok 0x100000000048] ∧
    ∀ q ∈ trials, (after errands onArena).Decided q.1 q.2 (Heap.reported q.1 q.2) := by
  have hv : Valid errands onArena := by decide +kernel
  have hh : ∀ q ∈ trials,
      ((after errands onArena).step (.alloc q.1 q.2)).2.machine.Honoured := by decide +kernel
  constructor
  · decide +kernel
  · intro q hq
    exact allocation_outcomes (.plain 7) _ hv (hh q hq)

/-- The numbers of the request are not always reported. -/
theorem oversized_overflow_misreported :
    (onArena.heap.alloc (2 ^ 64 - 78) 64 onArena.machine).1 =
      .error (.refused (.sizeOverflow (2 ^ 64 - 6) 1)) ∧
    ¬ onArena.Decided (2 ^ 64 - 78) 64 (2 ^ 64 - 78, 64) := by
  have hx : (onArena.heap.alloc (2 ^ 64 - 78) 64 onArena.machine).1 =
      .error (.refused (.sizeOverflow (2 ^ 64 - 6) 1)) := by decide +kernel
  refine ⟨hx, fun h => ?_⟩
  obtain ⟨-, -, hnumbers⟩ := (h.overlong _ _).mp hx
  exact absurd hnumbers (by decide)

end World

end ChunkHeap
