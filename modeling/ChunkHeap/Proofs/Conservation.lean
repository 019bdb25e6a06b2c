import Mathlib
import ChunkHeap.Proofs.Ledger
import ChunkHeap.Proofs.Moves

/-!
# Conservation of reservations

At any time a heap holds its regions and one reservation for each oversized
chunk that is lent, and nothing else. What it gives back is a reservation just
as it was granted, until the heap ends and its regions go back as well, in the
order in which they were acquired.
-/

set_option autoImplicit false

namespace ChunkHeap

namespace Provider

variable {π : Type} [Platform π] {p p' : Provider π}

theorem calls_reserve {len : ℕ} {base : Option ℕ} (h : p.reserve len = (base, p')) :
    p'.calls = p.calls ++ [.reserved len base] := by
  obtain ⟨rfl, rfl⟩ := Prod.mk.inj h
  rfl

theorem calls_release (p : Provider π) (base len : ℕ) :
    ∃ accepted, (p.release base len).calls = p.calls ++ [.released base len accepted] :=
  ⟨_, rfl⟩

end Provider

namespace Ideal

variable {π : Type} [Platform π] {g g' : Ideal} {a : Action} {p p' : Provider π}

def reservations (g : Ideal) : List Span := (g.live.map Prod.snd).filterMap Place.reservation?

theorem forget_perm {ptr : ℕ} {place : Place} (hn : (g.live.map Prod.fst).Nodup)
    (hl : g.live.lookup ptr = some place) : g.live.Perm ((ptr, place) :: (g.forget ptr).live) := by
  obtain ⟨before, after, hsplit, hforget, -⟩ := exists_split_of_nodup Prod.fst hn (mem_live hl)
  have hlive : (g.forget ptr).live = before ++ after := hforget
  rw [hlive, hsplit]
  exact List.perm_middle

theorem reservations_forget {ptr : ℕ} {place : Place} (hn : (g.live.map Prod.fst).Nodup)
    (hl : g.live.lookup ptr = some place) :
    g.reservations.Perm (place.reservation?.toList ++ (g.forget ptr).reservations) := by
  have hp := ((forget_perm hn hl).map Prod.snd).filterMap Place.reservation?
  cases place with
  | pooled c chunk padded => exact hp
  | reserved base len => exact hp

/-- The calls made to the platform account for the regions and the reservations
of live pointers. -/
def Booked (g : Ideal) (calls : List Note) : Prop :=
  ∃ reservations, reservations.Perm g.reservations ∧
    Ledger g.regionSize g.bases reservations calls

theorem reservations_lend_pooled {size align : ℕ} {c : SizeClass} (hp : a.Pools size align c)
    (g : Ideal) (chunk : ℕ) : (g.lend size align chunk).reservations = g.reservations := by
  have hplace : Place.of (Chunk.headerSize + size + align) chunk =
      .pooled c chunk (c.padded size align) := by
    rw [Place.of, hp.regime]
    rfl
  rw [reservations, lend, hplace]
  rfl

/-- A move writes its call to the ledger. -/
theorem Moves.booked (hm : g.Moves a p (g', p')) (hb : g.Booked p.calls)
    (hn : (g.live.map Prod.fst).Nodup) (hR : 0 < g.regionSize) (hh : HonouredFrom [] p'.calls) :
    g'.Booked p'.calls := by
  obtain ⟨rs, hrs, hl⟩ := hb
  cases hm with
  | idle => exact ⟨rs, hrs, hl⟩
  | @refused len _ asked =>
    rw [Provider.calls_reserve asked]
    exact ⟨rs, hrs, hl.refused len⟩
  | reused pools top =>
    refine ⟨rs, ?_, hl⟩
    rw [reservations_lend_pooled pools]
    exact hrs
  | cut pools empty current fits =>
    refine ⟨rs, ?_, hl⟩
    rw [reservations_lend_pooled pools]
    exact hrs
  | entered pools empty full asked =>
    rw [Provider.calls_reserve asked] at hh ⊢
    refine ⟨rs, ?_, hl.region (hl.fresh hR hh)⟩
    rw [reservations_lend_pooled pools]
    exact hrs
  | @reserved size align base _ asks regime asked =>
    rw [Provider.calls_reserve asked] at hh ⊢
    have hpos : 0 < Chunk.headerSize + size + align + Chunk.oversizedPrefix :=
      Nat.lt_of_lt_of_le (by decide) (Nat.le_add_left Chunk.oversizedPrefix _)
    refine ⟨_, ?_, hl.reservation (hl.fresh hpos hh)⟩
    rw [reservations, lend, Place.of_oversized regime]
    exact hrs.cons _
  | shelved returns found =>
    exact ⟨rs, hrs.trans (reservations_forget hn found), hl⟩
  | @released ptr base len returns found =>
    obtain ⟨accepted, hcalls⟩ := p.calls_release base len
    rw [hcalls]
    exact ⟨(g.forget ptr).reservations, List.Perm.refl _,
      hl.release accepted (hrs.trans (reservations_forget hn found))⟩

theorem Moves.bases_suffix (hm : g.Moves a p (g', p')) :
    g.bases <:+ g'.bases ∧ g'.regionSize = g.regionSize := by
  cases hm with
  | entered => exact ⟨List.suffix_cons _ _, rfl⟩
  | _ => exact ⟨List.suffix_refl _, rfl⟩

end Ideal

namespace World

variable {π : Type} {s : World π} {g : Ideal}

def lentReservations (s : World π) : List Span :=
  (s.loans.map Loan.place).filterMap Place.reservation?

def regionSpans (s : World π) : List Span :=
  s.heap.regions.bases.map (Span.mk · s.heap.regions.regionSize)

/-- The reservations granted and not released are the regions and those of
oversized loans. All releases were of ranges held at the time, none of them of
a region, and the regions are there in the order in which they were granted. -/
structure Conserved (s : World π) : Prop where
  held : s.machine.held.Perm (s.regionSpans ++ s.lentReservations)
  balance : (s.machine.provider.calls.filterMap Note.granted?).length =
    (s.machine.provider.calls.filterMap Note.released?).length +
      (s.heap.stats.regions + s.heap.stats.oversizedLive)
  due : DueFrom [] s.machine.provider.calls
  kept : ∀ r ∈ s.regionSpans, ∃ before since,
    s.machine.provider.calls = before ++ .reserved r.len (some r.start) :: since ∧
      r ∉ since.filterMap Note.released?
  order : s.regionSpans.reverse.Sublist (s.machine.provider.calls.filterMap Note.granted?)

/-- When the heap ends its regions go back, the oldest first, and nothing else. -/
structure Dropped (s : World π) (notes : List Note) (w : Machine π) : Prop where
  calls : w.provider.calls = s.machine.provider.calls ++ notes
  releases : notes.map Note.released? = s.regionSpans.reverse.map some
  due : DueFrom [] w.provider.calls
  held : w.held.Perm s.lentReservations

theorem Mirrors.conserved (hs : s.Mirrors g) (hb : g.Booked s.machine.provider.calls) :
    s.Conserved := by
  have hr := hs.kept.represents.regions
  have hregions : s.regionSpans = g.bases.map (Span.mk · g.regionSize) := by
    rw [regionSpans, hr]
  have hheld := hs.owns.regions
  obtain ⟨rs, hrs, hl⟩ := hb
  constructor
  · rw [hregions]
    exact hheld
  · have hbalance := balance_of_due hl.due
    rw [show heldFrom [] s.machine.provider.calls = s.machine.held from heldFrom_calls _ _,
      hheld.length_eq, List.length_append, List.length_map, ← hs.owns.oversized] at hbalance
    simp only [Heap.stats, hr, hs.kept.represents.oversized]
    simp only [List.length_nil] at hbalance
    omega
  · exact hl.due
  · intro r hmem
    rw [hregions] at hmem
    obtain ⟨b, hbmem, rfl⟩ := List.mem_map.mp hmem
    exact hl.kept b hbmem
  · rw [hregions, ← List.map_reverse]
    exact hl.order

end World

section

variable {π : Type} [Platform π]

theorem RegionSource.calls_releaseBases (R : ℕ) (w : Machine π) (bases : List ℕ) :
    ∃ notes, (releaseBases R w bases).provider.calls = w.provider.calls ++ notes ∧
      notes.map Note.released? = (bases.map (Span.mk · R)).map some := by
  induction bases generalizing w with
  | nil => exact ⟨[], by simp [releaseBases], rfl⟩
  | cons base bases ih =>
    obtain ⟨notes, hcalls, hnotes⟩ := ih (w.release base R)
    obtain ⟨accepted, hfirst⟩ := w.provider.calls_release base R
    rw [Machine.provider_release, hfirst, List.append_assoc] at hcalls
    refine ⟨_, hcalls, ?_⟩
    rw [List.singleton_append, List.map_cons, hnotes]
    rfl

theorem Heap.calls_drop (h : Heap) (w : Machine π) :
    ∃ notes, (h.drop w).provider.calls = w.provider.calls ++ notes ∧ notes.map Note.released? =
      (h.regions.bases.reverse.map (Span.mk · h.regions.regionSize)).map some := by
  have hall : ∀ w' : Machine π, w'.provider = w.provider →
      ∃ notes, (RegionSource.releaseBases h.regions.regionSize w'
          h.regions.bases.reverse).provider.calls = w.provider.calls ++ notes ∧
        notes.map Note.released? =
          (h.regions.bases.reverse.map (Span.mk · h.regions.regionSize)).map some := by
    intro w' hw
    rw [← hw]
    exact RegionSource.calls_releaseBases _ w' _
  simp only [drop, RegionSource.releaseAll]
  -- what is reported before the releases is no call
  apply hall
  split_ifs <;> simp

end

namespace World

variable {π : Type} [Platform π] {s : World π} {g : Ideal}

theorem Conserved.dropped (h : s.Conserved) :
    ∃ notes, s.Dropped notes (s.heap.drop s.machine) := by
  obtain ⟨notes, hcalls, hnotes⟩ := s.heap.calls_drop s.machine
  have hregions : s.heap.regions.bases.reverse.map (Span.mk · s.heap.regions.regionSize) =
      s.regionSpans.reverse := List.map_reverse
  rw [hregions] at hnotes
  have hheld : heldFrom [] s.machine.provider.calls = s.machine.held := heldFrom_calls _ _
  have hperm : s.machine.held.Perm (s.regionSpans.reverse ++ s.lentReservations) :=
    h.held.trans ((List.reverse_perm _).symm.append_right _)
  obtain ⟨hrest, hdue⟩ := heldFrom_releases hnotes hperm
  have hafter : (s.heap.drop s.machine).held = heldFrom s.machine.held notes := by
    rw [← hheld, ← heldFrom_append, ← hcalls]
    exact (heldFrom_calls _ _).symm
  refine ⟨notes, hcalls, hnotes, ?_, ?_⟩
  · rw [hcalls, dueFrom_append, hheld]
    exact ⟨h.due, hdue⟩
  · rw [hafter]
    exact hrest

theorem Mirrors.booked_step (hs : s.Mirrors g) (hb : g.Booked s.machine.provider.calls)
    {a : Action} (ha : s.Ready a) (hh : (s.step a).2.machine.Honoured) :
    ∃ g', (s.step a).2.Mirrors g' ∧ g'.Booked (s.step a).2.machine.provider.calls ∧
      s.heap.regions.bases <:+ (s.step a).2.heap.regions.bases ∧
      (s.step a).2.heap.regions.regionSize = s.heap.regions.regionSize := by
  obtain ⟨g', hs', hm⟩ := hs.step_moves ha hh
  have hn : (g.live.map Prod.fst).Nodup := by
    have hptrs := hs.ptrs_nodup
    rwa [hs.live, List.map_map]
  have hR : 0 < g.regionSize := Nat.lt_of_lt_of_le (by decide) hs.owns.roomy
  have hcalls : HonouredFrom [] (s.step a).2.machine.provider.calls :=
    (honouredFrom_calls _ _).mpr hh
  have hbases := hm.bases_suffix
  rw [hs.kept.represents.regions, hs'.kept.represents.regions]
  exact ⟨g', hs', hm.booked hb hn hR hcalls, hbases.1, hbases.2⟩

theorem Mirrors.booked_after {acts : List Action} (hs : s.Mirrors g)
    (hb : g.Booked s.machine.provider.calls) (hv : Valid acts s)
    (hh : (after acts s).machine.Honoured) :
    ∃ g', (after acts s).Mirrors g' ∧ g'.Booked (after acts s).machine.provider.calls ∧
      s.heap.regions.bases <:+ (after acts s).heap.regions.bases ∧
      (after acts s).heap.regions.regionSize = s.heap.regions.regionSize := by
  induction acts generalizing s g with
  | nil => exact ⟨g, hs, hb, List.suffix_refl _, rfl⟩
  | cons a acts ih =>
    obtain ⟨g', hs', hb', hbases, hsize⟩ := hs.booked_step hb hv.1 (honoured_step hh)
    obtain ⟨g'', hs'', hb'', hbases', hsize'⟩ := ih hs' hb' hv.2 hh
    exact ⟨g'', hs'', hb'', hbases.trans hbases', hsize'.trans hsize⟩

omit [Platform π] in
theorem booked_ideal (h : Heap) : h.ideal.Booked [] := ⟨[], List.Perm.refl _, .none⟩

theorem reservations_conserved {h : Heap} (hf : h.Fresh) (w : Machine π)
    {acts more : List Action} (hv : Valid (acts ++ more) (start h w))
    (hh : (after (acts ++ more) (start h w)).machine.Honoured) :
    (after acts (start h w)).Conserved ∧
    (∃ notes, (after acts (start h w)).Dropped notes
      ((after acts (start h w)).heap.drop (after acts (start h w)).machine)) ∧
    (after acts (start h w)).heap.regions.bases <:+
      (after (acts ++ more) (start h w)).heap.regions.bases ∧
    (after (acts ++ more) (start h w)).heap.regions.regionSize = h.regions.regionSize := by
  obtain ⟨hv₁, hv₂⟩ := (valid_append _ _ _).mp hv
  rw [after_append] at hh ⊢
  obtain ⟨g, hs, hb, -, hsize⟩ := (hf.mirrors w).booked_after (booked_ideal h) hv₁
    ((grew_after _ _).honoured hh)
  obtain ⟨-, -, -, hbases, hsize'⟩ := hs.booked_after hb hv₂ hh
  have hconserved := hs.conserved hb
  exact ⟨hconserved, hconserved.dropped, hbases, hsize'.trans hsize⟩

theorem reservations_conserved_errands :
    (after errands onArena).lentReservations = [⟨0x100000400000, 2000080⟩] ∧
    Valid (errands ++ [.free 0x100000400040]) onArena ∧
    (after (errands ++ [.free 0x100000400040]) onArena).machine.Honoured ∧
    (after errands onArena).Conserved ∧
    (∃ notes, (after errands onArena).Dropped notes
      ((after errands onArena).heap.drop (after errands onArena).machine)) ∧
    (after errands onArena).heap.regions.bases <:+
      (after (errands ++ [.free 0x100000400040]) onArena).heap.regions.bases ∧
    (after (errands ++ [.free 0x100000400040]) onArena).heap.regions.regionSize =
      defaultRegionSize := by
  have hr : (after errands onArena).lentReservations = [⟨0x100000400000, 2000080⟩] := by
    decide +kernel
  have hv : Valid (errands ++ [.free 0x100000400040]) onArena := by decide +kernel
  have hh : (after (errands ++ [.free 0x100000400040]) onArena).machine.Honoured := by
    decide +kernel
  exact ⟨hr, hv, hh, reservations_conserved (.plain 7) _ hv hh⟩

end World

end ChunkHeap
