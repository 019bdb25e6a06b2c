import Mathlib
import ChunkHeap.Proofs.Moves

/-!
# Free chunks are lent again

All free chunks of one size are in the bucket where a request for that size
looks first. As long as there is one, the request is served without a cut and
without a call to the platform.
-/

set_option autoImplicit false

namespace ChunkHeap

theorem Regime.lt_wordLimit {total : ℕ} {c : SizeClass} (hc : ofSize total = .pooled c) :
    total < wordLimit := by
  have hle : total ≤ 2 ^ 20 := by
    by_contra hbig
    rw [ofSize_eq_oversized.mpr (Nat.lt_of_not_le hbig)] at hc
    cases hc
  exact lt_of_le_of_lt hle (by decide)

variable {π : Type} [Platform π]

theorem BucketTable.calm_take {t : BucketTable} {size padded chunk : ℕ} {i : Fin bucketCount}
    (hf : t.fit size = .ok (padded, i)) (hh : t.heads.get i = some chunk) (r : RegionSource)
    (w : Machine π) : w.Calm (t.take size r w).2.2.2 := by
  simp only [take, hf, obtain, hh]
  rcases t.pop i chunk w.memory with ⟨_ | x, t'⟩
  · exact Machine.Calm.refl w
  · exact ⟨rfl, rfl⟩

namespace Heap

variable {h : Heap} {size align padded chunk : ℕ} {c : SizeClass} {i : Fin bucketCount}

theorem calm_alloc (hc : Regime.ofSize (Chunk.headerSize + size + align) = .pooled c)
    (hf : (h.tables c).fit (Chunk.headerSize + size + align) = .ok (padded, i))
    (hh : (h.tables c).heads.get i = some chunk) (w : Machine π) :
    w.Calm (h.alloc size align w).2.2 := by
  have ht := BucketTable.calm_take hf hh h.regions w
  unfold alloc
  rw [totalSize_eq (Regime.lt_wordLimit hc)]
  simp only [takeChunk, hc]
  rcases hx : (h.tables c).take (Chunk.headerSize + size + align) h.regions w
    with ⟨_ | x, t, r, w'⟩
  · rw [hx] at ht
    split_ifs
    · exact Machine.Calm.refl w
    · exact ht
  · rw [hx] at ht
    split_ifs
    · exact Machine.Calm.refl w
    · simp only
      split
      · exact ht
      · exact ⟨ht.platform, ht.journal⟩

end Heap

variable {s : World π} {g : Ideal}

theorem World.calm_request {a : Action} {size align : ℕ} (ha : a.asks? = some (size, align))
    (h : s.machine.Calm (s.heap.alloc size align s.machine).2.2) :
    s.machine.Calm (s.step a).2.machine := by
  rcases Action.eq_of_asks ha with rfl | ⟨layout, zeroed, rfl, rfl, rfl⟩
  · rwa [s.machine_alloc]
  · exact h.trans (s.calm_allocate layout zeroed)

namespace Ideal

variable {a : Action} {p p' : Provider π} {size align : ℕ} {c : SizeClass}

/-- A stack of free chunks belongs to the class that their size falls into. -/
def Filed (g : Ideal) : Prop := ∀ c n, g.stack c n ≠ [] → Regime.ofSize n = .pooled c

theorem Filed.withStack (hf : g.Filed) {n : ℕ} {chunks : List ℕ}
    (hc : chunks ≠ [] → Regime.ofSize n = .pooled c) : (g.withStack c n chunks).Filed := by
  intro c' n' hne
  by_cases hk : c' = c ∧ n' = n
  · obtain ⟨rfl, rfl⟩ := hk
    apply hc
    simpa [Ideal.withStack] using hne
  · apply hf c' n'
    simpa [Ideal.withStack, hk] using hne

theorem Moves.filed {g' : Ideal} (hm : Moves g a p (g', p')) (hf : g.Filed)
    (hl : ∀ q ∈ g.live, ∀ c chunk n, q.2 = .pooled c chunk n → Regime.ofSize n = .pooled c) :
    g'.Filed := by
  cases hm with
  | @reused size align chunk c rest pools top =>
    exact hf.withStack fun _ => hf c _ (by simp [top])
  | @shelved ptr chunk padded c returns found =>
    have hsize := hl _ (mem_live found) c chunk padded rfl
    exact Filed.withStack (g := g.forget ptr) hf fun _ => hsize
  | _ => exact hf

theorem alloc_reused (ha : Heap.alignmentAllowed align = true)
    (hc : Regime.ofSize (Chunk.headerSize + size + align) = .pooled c)
    (hs : g.stack c (c.padded size align) ≠ []) (p : Provider π) :
    ∃ ptr g', g.alloc size align p = (.ok ptr, g', p) ∧ g'.regionSize = g.regionSize ∧
      g'.bases = g.bases ∧ g'.cursor = g.cursor := by
  obtain ⟨chunk, rest, htop⟩ := List.exists_cons_of_ne_nil hs
  have htake : g.take (Chunk.headerSize + size + align) p =
      (.ok chunk, g.withStack c (c.padded size align) rest, p) := by
    rw [take, hc]
    simp only [draw]
    rw [← SizeClass.padded, htop]
  exact ⟨_, _, alloc_taken ha (Regime.lt_wordLimit hc) htake, rfl, rfl, rfl⟩

end Ideal

/-- A request that is served and leaves the regions and the platform alone. -/
structure World.Reuses (s : World π) (a : Action) : Prop where
  lent : ∃ ptr, (s.step a).1.ptr? = some ptr
  regions : (s.step a).2.heap.regions = s.heap.regions
  provider : (s.step a).2.machine.provider = s.machine.provider

namespace World.Mirrors

theorem filed_step (hs : s.Mirrors g) (hf : g.Filed) {a : Action} {g' : Ideal}
    (hm : g.Moves a s.machine.provider (g', (s.step a).2.machine.provider)) : g'.Filed := by
  apply hm.filed hf
  intro q hq c chunk n hplace
  rw [hs.live] at hq
  obtain ⟨l, -, rfl⟩ := List.mem_map.mp hq
  rcases l.place_cases with ⟨c', i, hsize, hp⟩ | hp
  · obtain ⟨rfl, -, rfl⟩ := Place.pooled.inj (hp.symm.trans hplace)
    exact hsize
  · cases hp.symm.trans hplace

/-- A request is served from the free chunks of its size, if there are any. -/
theorem reuses (hs : s.Mirrors g) (hh : s.machine.Honoured) {a : Action} {size align : ℕ}
    {c : SizeClass} (hp : a.Pools size align c) (ha : align.isPowerOfTwo)
    (hstack : g.stack c (c.padded size align) ≠ []) : s.Reuses a := by
  have hpos := Chunk.total_pos size align
  have hle := (Regime.le_maxSize hpos hp.regime).trans c.maxSize_le
  rw [SizeClass.maxSize_big] at hle
  have hallowed : Heap.alignmentAllowed align = true :=
    Heap.alignmentAllowed_iff.mpr ⟨ha, by unfold Heap.maxAlignment; omega⟩
  obtain ⟨i, hi⟩ := Regime.exists_bucket hpos hp.regime
  have hfit := BucketTable.fit_pooled (hs.kept.represents.units c) hp.regime hpos hi
  obtain ⟨chunk, rest, htop⟩ := List.exists_cons_of_ne_nil hstack
  rw [SizeClass.padded, hi] at htop
  have hhead := (hs.kept.represents.head_eq htop).1
  have hcalm := calm_request hp.asks (Heap.calm_alloc hp.regime hfit hhead s.machine)
  have hready : s.Ready a := by
    rcases Action.eq_of_asks hp.asks with rfl | ⟨layout, zeroed, rfl, -⟩
    · trivial
    · trivial
  have hf := hs.step_follows hready (hcalm.honoured_iff.mpr hh)
  obtain ⟨ptr, g', halloc, hsize, hbases, hcursor⟩ :=
    Ideal.alloc_reused hallowed hp.regime hstack s.machine.provider
  have hstep : (g.step a s.machine.provider).1.ptr? = some ptr ∧
      (g.step a s.machine.provider).2.1 = g' := by
    rcases Action.eq_of_asks hp.asks with rfl | ⟨layout, zeroed, rfl, rfl, rfl⟩
    · simp only [Ideal.step, halloc]
      exact ⟨rfl, trivial⟩
    · simp only [Ideal.step, halloc]
      exact ⟨rfl, trivial⟩
  refine ⟨⟨ptr, hf.answer ▸ hstep.1⟩, ?_, hcalm.provider⟩
  rw [hf.mirrors.kept.represents.regions, hs.kept.represents.regions, hstep.2, hsize, hbases,
    hcursor]

end World.Mirrors

end ChunkHeap
