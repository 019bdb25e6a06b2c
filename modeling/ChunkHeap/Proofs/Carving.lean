import Mathlib
import ChunkHeap.Proofs.Conservation
import ChunkHeap.Proofs.Journal
import ChunkHeap.Proofs.Supply

/-!
# A region source at work

A source that is used by itself carves pieces of any size up to that of its
regions, the size zero included, until all regions are released, and then again.
The pieces of a region lie one behind the other from its base on. A new region is
asked for only if the current one has no room left for the next piece.

The region size may be any number. Ranges that are granted need not be aligned.
They only have to end in the lower half of the address space and to be disjoint
from all that is held.
-/

set_option autoImplicit false

namespace ChunkHeap

/-- Every range that was granted ended in the lower half of the address space and
was disjoint from all that was held. -/
def Machine.Reliable {π : Type} (w : Machine π) : Prop :=
  ∀ before len base since, w.provider.calls = before ++ .reserved len (some base) :: since →
    0 < base ∧ base + len ≤ layoutLimit ∧ ∀ r ∈ heldFrom [] before, Span.Disjoint ⟨base, len⟩ r

theorem Machine.Reliable.mono {π : Type} {w w' : Machine π} (h : w'.Reliable)
    (hg : w.provider.calls <+: w'.provider.calls) : w.Reliable := by
  intro before len base since hcalls
  obtain ⟨more, hmore⟩ := hg
  rw [hcalls, List.append_assoc, List.cons_append] at hmore
  exact h before len base _ hmore.symm

/-- A contract that is honoured makes a platform reliable. -/
theorem Machine.Honoured.reliable {π : Type} {w : Machine π} (h : w.Honoured) : w.Reliable := by
  intro before len base since hcalls
  have hall := (honouredFrom_calls [] w.journal).mpr h
  change HonouredFrom [] w.provider.calls at hall
  rw [hcalls, honouredFrom_append] at hall
  have hgrant : Grantable ⟨base, len⟩ (heldFrom [] before) := hall.2.1
  exact ⟨hgrant.pos, hgrant.below, hgrant.apart⟩

inductive Demand where
  | carve (size : ℕ)
  | releaseAll

/-- A source with the pieces carved off the regions it holds, the newest first. -/
structure Quarry (π : Type) where
  source : RegionSource
  machine : Machine π
  lots : List (List Span) := []

/-- Pieces fill the first bytes behind a base, the last one up to an offset. -/
inductive Fills (base : ℕ) : List Span → ℕ → Prop
  | none : Fills base [] 0
  | next {pieces : List Span} {n : ℕ} (size : ℕ) (before : Fills base pieces n) :
      Fills base (⟨base + n, size⟩ :: pieces) (n + size)

namespace Fills

variable {base n : ℕ} {pieces : List Span}

theorem within (h : Fills base pieces n) : ∀ p ∈ pieces, p.Within ⟨base, n⟩ := by
  induction h with
  | none => simp
  | @next pieces n size before ih =>
    intro p hp
    rcases List.mem_cons.mp hp with rfl | hp
    · exact ⟨Nat.le_add_right _ _, (Nat.add_assoc base n size).le⟩
    · exact (ih p hp).trans ⟨Nat.le_refl _, by simp only [Span.stop]; omega⟩

theorem apart (h : Fills base pieces n) : pieces.Pairwise Span.Disjoint := by
  induction h with
  | none => exact .nil
  | next size before ih => exact .cons (fun p hp => Or.inr (before.within p hp).2) ih

end Fills

/-- The pieces of each region, those of the current one up to the cursor. -/
inductive Lots (R : ℕ) : List ℕ → ℕ → List (List Span) → Prop
  | none : Lots R [] 0 []
  | some {base cursor : ℕ} {bases : List ℕ} {lot : List Span} {lots : List (List Span)}
      (current : Fills base lot cursor) (bound : cursor ≤ R)
      (earlier : List.Forall₂ (fun base lot => ∃ n ≤ R, Fills base lot n) bases lots) :
      Lots R (base :: bases) cursor (lot :: lots)

namespace Lots

variable {R cursor : ℕ} {bases : List ℕ} {lots : List (List Span)}

theorem cursor_le (h : Lots R bases cursor lots) : cursor ≤ R := by
  cases h with
  | none => exact Nat.zero_le R
  | some current bound earlier => exact bound

theorem forall₂ (h : Lots R bases cursor lots) :
    List.Forall₂ (fun base lot => ∃ n ≤ R, Fills base lot n) bases lots := by
  cases h with
  | none => exact .nil
  | some current bound earlier => exact .cons ⟨_, bound, current⟩ earlier

theorem enter (h : Lots R bases cursor lots) (base : ℕ) {size : ℕ} (hs : size ≤ R) :
    Lots R (base :: bases) size ([⟨base, size⟩] :: lots) := by
  have hfirst : Fills base [⟨base + 0, size⟩] (0 + size) := .next size .none
  rw [Nat.zero_add] at hfirst
  exact .some hfirst hs h.forall₂

/-- Each piece is in a region of its own lot. -/
theorem within (h : List.Forall₂ (fun base lot => ∃ n ≤ R, Fills base lot n) bases lots) :
    ∀ p ∈ lots.flatten, ∃ base ∈ bases, p.Within ⟨base, R⟩ := by
  induction h with
  | nil => simp
  | @cons base lot bases lots hf hrest ih =>
    obtain ⟨n, hn, hf⟩ := hf
    intro p hp
    rcases List.mem_append.mp hp with hp | hp
    · exact ⟨base, List.mem_cons_self, (hf.within p hp).trans
        ⟨Nat.le_refl _, Nat.add_le_add_left hn base⟩⟩
    · obtain ⟨base', hbase', hin⟩ := ih p hp
      exact ⟨base', List.mem_cons_of_mem _ hbase', hin⟩

/-- Pieces of disjoint regions are disjoint. -/
theorem apart (h : List.Forall₂ (fun base lot => ∃ n ≤ R, Fills base lot n) bases lots)
    (hd : (bases.map (Span.mk · R)).Pairwise Span.Disjoint) :
    lots.flatten.Pairwise Span.Disjoint := by
  induction h with
  | nil => exact .nil
  | @cons base lot bases lots hf hrest ih =>
    obtain ⟨n, hn, hf⟩ := hf
    obtain ⟨hfirst, hd⟩ := List.pairwise_cons.mp hd
    rw [List.flatten_cons, List.pairwise_append]
    refine ⟨hf.apart, ih hd, fun p hp p' hp' => ?_⟩
    obtain ⟨base', hbase', hin'⟩ := within hrest p' hp'
    have hin : p.Within ⟨base, R⟩ :=
      (hf.within p hp).trans ⟨Nat.le_refl _, Nat.add_le_add_left hn base⟩
    exact (hfirst ⟨base', R⟩ (List.mem_map_of_mem hbase')).mono hin hin'

end Lots

namespace RegionSource

variable {π : Type} [Platform π] {r : RegionSource} {size : ℕ} {w : Machine π}

/-- The current region, if there is one, has no room left for a chunk. -/
def Full (r : RegionSource) (size : ℕ) : Prop := r.bases = [] ∨ r.regionSize - r.cursor < size

/-- The ways in which a source deals with a size that regions have room for. -/
inductive Carves (r : RegionSource) (size : ℕ) (w : Machine π) :
    Except Failure ℕ × RegionSource × Machine π → Prop
  | room {base : ℕ} {bases : List ℕ} (current : r.bases = base :: bases) (fits : ¬ r.Full size) :
      Carves r size w (.ok (base + r.cursor), { r with cursor := r.cursor + size }, w)
  | refused {w' : Machine π} (full : r.Full size) (asked : w.reserve r.regionSize = (none, w')) :
      Carves r size w (.error (.refused (.outOfMemory r.regionSize)), r, w')
  | granted {base : ℕ} {w' : Machine π} (full : r.Full size)
      (asked : w.reserve r.regionSize = (some base, w')) :
      Carves r size w (.ok base, { r with bases := base :: r.bases, cursor := size },
        w'.report (.acquiredRegion base r.regionSize (r.bases.length + 1)
          (r.regionSize - r.cursor)))

/-- The sums that are formed are words if regions end in the lower half of the
address space. -/
theorem carves (hs : size ≤ r.regionSize) (hc : r.cursor ≤ r.regionSize)
    (hb : r.bases ≠ [] → r.regionSize < layoutLimit) : r.Carves size w (r.carve size w) := by
  by_cases hfull : r.Full size
  · have hextend : r.carve size w = r.extend size w := by
      apply carve_extend hs
      intro base bases hbases
      have hne : r.bases ≠ [] := by simp [hbases]
      have hroom := hfull.resolve_left hne
      have hlimit := hb hne
      unfold layoutLimit at hlimit
      unfold wordLimit
      omega
    rw [hextend]
    rcases ha : w.reserve r.regionSize with ⟨_ | base, w'⟩
    · rw [extend_refused ha]
      exact .refused hfull ha
    · rw [extend_granted hc ha]
      exact .granted hfull ha
  · obtain ⟨hbases, hroom⟩ := not_or.mp hfull
    obtain ⟨base, bases, hcons⟩ := List.exists_cons_of_ne_nil hbases
    have hlimit := hb hbases
    have hsize : r.regionSize < wordLimit := hlimit.trans (by decide)
    rw [carve_room hcons (by omega) hsize]
    exact .room hcons hfull

end RegionSource

theorem RegionSource.calls_releaseAll {π : Type} [Platform π] (r : RegionSource) (w : Machine π) :
    ∃ notes, (r.releaseAll w).2.provider.calls = w.provider.calls ++ notes ∧
      notes.map Note.released? = (r.bases.reverse.map (Span.mk · r.regionSize)).map some := by
  have hreport : (if r.bases.isEmpty then w else
      w.report (.releasingRegions r.bases.length r.regionSize)).provider = w.provider := by
    split_ifs <;> simp
  rw [← hreport]
  exact RegionSource.calls_releaseBases _ _ _

namespace Quarry

variable {π : Type}

def start (regionSize : ℕ) (w : Machine π) : Quarry π :=
  { source := { regionSize }, machine := w.quiet }

/-- A region is needed for a piece. -/
def Asks (q : Quarry π) (size : ℕ) : Prop :=
  q.source.bases = [] ∨ q.source.regionSize - q.source.cursor < size

/-- The ways in which a piece can be carved or refused. -/
inductive Carved (q : Quarry π) (R size : ℕ) : Option (Except Failure ℕ) × Quarry π → Prop
  | room {base : ℕ} {bases : List ℕ} {lot : List Span} {lots : List (List Span)}
      (unasked : ¬ q.Asks size) (current : q.source.bases = base :: bases)
      (filled : q.lots = lot :: lots) :
      Carved q R size (some (.ok (base + q.source.cursor)),
        { q with
          source := { q.source with cursor := q.source.cursor + size }
          lots := (⟨base + q.source.cursor, size⟩ :: lot) :: lots })
  | refused {w : Machine π} (asks : q.Asks size)
      (calls : w.provider.calls = q.machine.provider.calls ++ [.reserved R none]) :
      Carved q R size (some (.error (.refused (.outOfMemory R))), { q with machine := w })
  | granted {base : ℕ} {w : Machine π} (asks : q.Asks size)
      (calls : w.provider.calls = q.machine.provider.calls ++ [.reserved R (some base)]) :
      Carved q R size (some (.ok base),
        { q with
          source := { q.source with bases := base :: q.source.bases, cursor := size }
          machine := w
          lots := [⟨base, size⟩] :: q.lots })

/-- All regions were released, each once, the oldest first, and nothing is left. -/
structure Cleared (q : Quarry π) (R : ℕ) (q' : Quarry π) : Prop where
  source : q'.source = { regionSize := R }
  lots : q'.lots = []
  held : q'.machine.held = []
  calls : ∃ notes, q'.machine.provider.calls = q.machine.provider.calls ++ notes ∧
    notes.map Note.released? = (q.source.bases.reverse.map (Span.mk · R)).map some

/-- The regions of a source are what is held, and they are filled from their bases. -/
structure Laid (q : Quarry π) (R : ℕ) : Prop where
  size : q.source.regionSize = R
  held : q.machine.held = q.source.bases.map (Span.mk · R)
  below : ∀ base ∈ q.source.bases, 0 < base ∧ base + R ≤ layoutLimit
  apart : (q.source.bases.map (Span.mk · R)).Pairwise Span.Disjoint
  lots : Lots R q.source.bases q.source.cursor q.lots

theorem laid_start (R : ℕ) (w : Machine π) : (start R w).Laid R where
  size := rfl
  held := rfl
  below := by simp [start]
  apart := .nil
  lots := .none

theorem held_calls (q : Quarry π) : heldFrom [] q.machine.provider.calls = q.machine.held :=
  heldFrom_calls _ _

variable {q q' : Quarry π} {R size : ℕ} {x : Option (Except Failure ℕ)}

theorem Carved.laid (h : q.Carved R size (x, q')) (hl : q.Laid R) (hs : size ≤ R)
    (hr : q'.machine.Reliable) : q'.Laid R := by
  cases h with
  | @room base bases lot lots unasked current filled =>
    have hlots := hl.lots
    rw [current, filled] at hlots
    cases hlots with
    | some hfills bound earlier =>
      have hroom := (not_or.mp unasked).2
      rw [hl.size] at hroom
      have hbound : q.source.cursor + size ≤ R := by omega
      refine ⟨hl.size, hl.held, hl.below, hl.apart, ?_⟩
      rw [current]
      exact .some (hfills.next size) hbound earlier
  | refused asks calls =>
    refine ⟨hl.size, ?_, hl.below, hl.apart, hl.lots⟩
    rw [← held_calls, calls, heldFrom_append, held_calls]
    exact hl.held
  | @granted base w asks calls =>
    obtain ⟨hpos, hbelow, hapart⟩ := hr _ R base [] calls
    rw [held_calls, hl.held] at hapart
    refine ⟨hl.size, ?_, ?_, .cons hapart hl.apart, hl.lots.enter base hs⟩
    · rw [← held_calls, calls, heldFrom_append, held_calls, hl.held]
      rfl
    · exact List.forall_mem_cons.mpr ⟨⟨hpos, hbelow⟩, hl.below⟩

theorem Laid.pieces_apart (h : q.Laid R) : q.lots.flatten.Pairwise Span.Disjoint :=
  Lots.apart h.lots.forall₂ h.apart

theorem Laid.piece_region (h : q.Laid R) {p : Span} (hp : p ∈ q.lots.flatten) :
    ∃ base, Span.mk base R ∈ q.machine.held ∧ 0 < base ∧ base + R ≤ layoutLimit ∧
      p.Within ⟨base, R⟩ := by
  obtain ⟨base, hbase, hin⟩ := Lots.within h.lots.forall₂ p hp
  obtain ⟨hpos, hbelow⟩ := h.below base hbase
  rw [h.held]
  exact ⟨base, List.mem_map_of_mem hbase, hpos, hbelow, hin⟩

theorem Laid.piece_eq_or_disjoint (h : q.Laid R) {p p' : Span} (hp : p ∈ q.lots.flatten)
    (hp' : p' ∈ q.lots.flatten) : p = p' ∨ p.Disjoint p' := by
  have hsymm : Std.Symm Span.Disjoint := ⟨fun _ _ h => h.symm⟩
  by_cases heq : p = p'
  · exact Or.inl heq
  · exact Or.inr (h.pieces_apart.forall hp hp' heq)

theorem Cleared.laid (h : q.Cleared R q') : q'.Laid R := by
  obtain ⟨source, machine, lots⟩ := q'
  obtain rfl := h.source
  obtain rfl := h.lots
  exact ⟨rfl, h.held, by simp, .nil, .none⟩

variable [Platform π]

def step (q : Quarry π) : Demand → Option (Except Failure ℕ) × Quarry π
  | .carve size =>
      match q.source.carve size q.machine with
      | (.error failure, source, machine) => (some (.error failure), { q with source, machine })
      | (.ok addr, source, machine) =>
          (some (.ok addr), {
            source := source
            machine := machine
            lots := if source.bases.length = q.source.bases.length
              then q.lots.modifyHead (⟨addr, size⟩ :: ·)
              else [⟨addr, size⟩] :: q.lots })
  | .releaseAll =>
      let (source, machine) := q.source.releaseAll q.machine
      (none, { source, machine })

def after : List Demand → Quarry π → Quarry π
  | [], q => q
  | d :: ds, q => after ds (q.step d).2

omit [Platform π] in
theorem Laid.regionSize_lt (h : q.Laid R) (hne : q.source.bases ≠ []) :
    q.source.regionSize < layoutLimit := by
  obtain ⟨base, bases, hb⟩ := List.exists_cons_of_ne_nil hne
  obtain ⟨hpos, hbelow⟩ := h.below base (hb ▸ List.mem_cons_self)
  rw [h.size]
  omega

theorem Laid.carves (h : q.Laid R) (hs : size ≤ R) :
    q.source.Carves size q.machine (q.source.carve size q.machine) := by
  have hcursor := h.lots.cursor_le
  rw [← h.size] at hs hcursor
  exact RegionSource.carves hs hcursor h.regionSize_lt

theorem Laid.carved (h : q.Laid R) (hs : size ≤ R) : q.Carved R size (q.step (.carve size)) := by
  have hcarves := h.carves hs
  simp only [step]
  generalize q.source.carve size q.machine = x at hcarves ⊢
  cases hcarves with
  | room current fits =>
    have hlots := h.lots
    rw [current] at hlots
    cases hl : q.lots with
    | nil =>
      rw [hl] at hlots
      cases hlots
    | cons lot lots =>
      simp only [if_true, List.modifyHead_cons]
      exact .room fits current hl
  | refused full asked =>
    have hcalls := Provider.calls_reserve (q.machine.provider_reserve asked)
    rw [h.size] at hcalls ⊢
    exact .refused full hcalls
  | @granted base w' full asked =>
    have hcalls := Provider.calls_reserve (q.machine.provider_reserve asked)
    rw [h.size, ← w'.provider_report (.acquiredRegion base q.source.regionSize
      (q.source.bases.length + 1) (q.source.regionSize - q.source.cursor))] at hcalls
    have hlonger : (base :: q.source.bases).length ≠ q.source.bases.length := by simp
    simp only [if_neg hlonger]
    exact .granted full hcalls

theorem machine_carve (q : Quarry π) (size : ℕ) :
    (q.step (.carve size)).2.machine = (q.source.carve size q.machine).2.2 := by
  simp only [step]
  split <;> simp [*]

/-- No byte of a piece changes when the next is carved. -/
theorem Laid.carve_memory (h : q.Laid R) (hs : size ≤ R)
    (hr : (q.step (.carve size)).2.machine.Reliable) : ∀ p ∈ q.lots.flatten,
      q.machine.memory.AgreesOn (q.step (.carve size)).2.machine.memory p := by
  intro p hp
  have hcarves := h.carves hs
  rw [machine_carve] at hr ⊢
  generalize q.source.carve size q.machine = x at hcarves hr ⊢
  cases hcarves with
  | room current fits => exact fun x _ => rfl
  | refused full asked =>
    rw [q.machine.memory_refused asked]
    exact fun x _ => rfl
  | @granted base w' full asked =>
    have hcalls := Provider.calls_reserve (q.machine.provider_reserve asked)
    obtain ⟨contents, hm⟩ := q.machine.memory_granted asked
    obtain ⟨-, -, happart⟩ := hr _ q.source.regionSize base [] (by
      rw [Machine.provider_report, hcalls])
    obtain ⟨region, hregion, -, -, hin⟩ := h.piece_region hp
    have hd := (happart _ ((held_calls q).symm ▸ hregion)).symm
    rw [Machine.memory_report, hm]
    exact Memory.agreesOn_overlay _ contents (Span.Within.refl _)
      (hd.mono hin (Span.Within.refl _))

theorem Laid.carve_lots (h : q.Laid R) (hs : size ≤ R) :
    (∃ failure, (q.step (.carve size)).1 = some (.error failure) ∧
      (q.step (.carve size)).2.lots = q.lots) ∨
    (∃ chunk, (q.step (.carve size)).1 = some (.ok chunk) ∧
      (q.step (.carve size)).2.lots.flatten = ⟨chunk, size⟩ :: q.lots.flatten) := by
  have hcarved := h.carved hs
  generalize q.step (.carve size) = x at hcarved ⊢
  cases hcarved with
  | room unasked current filled =>
    right
    refine ⟨_, rfl, ?_⟩
    rw [filled]
    rfl
  | refused asks calls => exact Or.inl ⟨_, rfl, rfl⟩
  | granted asks calls => exact Or.inr ⟨_, rfl, rfl⟩

theorem Laid.cleared (h : q.Laid R) : q.Cleared R (q.step .releaseAll).2 := by
  obtain ⟨notes, hcalls, hnotes⟩ := q.source.calls_releaseAll q.machine
  rw [h.size] at hnotes
  have hperm : q.machine.held.Perm (q.source.bases.reverse.map (Span.mk · R) ++ []) := by
    rw [h.held, List.append_nil, List.map_reverse]
    exact (List.reverse_perm _).symm
  have hnone := (heldFrom_releases hnotes hperm).1.eq_nil
  constructor
  · rw [← h.size]
    rfl
  · rfl
  · rw [← held_calls]
    change heldFrom [] (q.source.releaseAll q.machine).2.provider.calls = []
    rw [hcalls, heldFrom_append, held_calls, hnone]
  · exact ⟨notes, hcalls, hnotes⟩

theorem calls_step (q : Quarry π) (d : Demand) :
    q.machine.provider.calls <+: (q.step d).2.machine.provider.calls := by
  cases d with
  | carve size =>
    have hgrew := (q.source.grew_carve size q.machine).filter Note.isCall
    simp only [step]
    split
    · next hx => rwa [hx] at hgrew
    · next hx => rwa [hx] at hgrew
  | releaseAll =>
    obtain ⟨notes, hcalls, -⟩ := q.source.calls_releaseAll q.machine
    exact ⟨notes, hcalls.symm⟩

theorem calls_after (ds : List Demand) (q : Quarry π) :
    q.machine.provider.calls <+: (after ds q).machine.provider.calls := by
  induction ds generalizing q with
  | nil => exact List.prefix_refl _
  | cons d ds ih => exact (q.calls_step d).trans (ih _)

theorem Laid.after {ds : List Demand} (h : q.Laid R) (hs : ∀ size, .carve size ∈ ds → size ≤ R)
    (hr : (after ds q).machine.Reliable) : (after ds q).Laid R := by
  induction ds generalizing q with
  | nil => exact h
  | cons d ds ih =>
    have hfirst : (q.step d).2.machine.Reliable := hr.mono (calls_after ds _)
    apply ih _ (fun size hmem => hs size (List.mem_cons_of_mem _ hmem)) hr
    cases d with
    | carve size =>
      have hle := hs size List.mem_cons_self
      exact (h.carved hle).laid h hle hfirst
    | releaseAll => exact h.cleared.laid

/-- What holds of a source at any time, and what it does next. -/
structure Sound (q : Quarry π) (R : ℕ) : Prop where
  laid : q.Laid R
  cursor : q.source.cursor ≤ R
  within : ∀ p ∈ q.lots.flatten, ∃ base ∈ q.source.bases, p.Within ⟨base, R⟩
  apart : q.lots.flatten.Pairwise Span.Disjoint
  carve : ∀ size ≤ R, q.Carved R size (q.step (.carve size))
  release : q.Cleared R (q.step .releaseAll).2

theorem pieces_carved (R : ℕ) (w : Machine π) {ds : List Demand}
    (hs : ∀ size, .carve size ∈ ds → size ≤ R)
    (hr : (after ds (start R w)).machine.Reliable) : (after ds (start R w)).Sound R := by
  have h := (laid_start R w).after hs hr
  exact ⟨h, h.lots.cursor_le, Lots.within h.lots.forall₂, h.pieces_apart,
    fun size hle => h.carved hle, h.cleared⟩

/-- A source of odd regions in the arena, which refuses the third reservation. -/
def pit : Quarry (Arena × Tenant) :=
  start 100 { memory := .zero, platform := ({}, { terms := { refused := [2] } }) }

/-- A region is filled to its end, a second one is not, the next is refused and
asked for again, and after all were released there is a first one again. -/
def dig : List Demand :=
  [.carve 60, .carve 0, .carve 40, .carve 0, .carve 99, .carve 2, .carve 1, .carve 2, .releaseAll,
    .carve 100]

theorem pieces_carved_dig :
    (after (dig.take 4) pit).lots = [[⟨0x100000000064, 0⟩, ⟨0x10000000003c, 40⟩,
      ⟨0x10000000003c, 0⟩, ⟨0x100000000000, 60⟩]] ∧
    (after (dig.take 8) pit).source = ⟨100, [0x100000002000, 0x100000001000, 0x100000000000], 2⟩ ∧
    (after dig pit).lots = [[⟨0x100000003000, 100⟩]] ∧
    ∀ n ∈ [4, 8, 10], (after (dig.take n) pit).Sound 100 := by
  have hs : ∀ size, .carve size ∈ dig → size ≤ 100 := by
    intro size hmem
    simp only [dig, List.mem_cons, Demand.carve.injEq, List.not_mem_nil, or_false, reduceCtorEq,
      false_or] at hmem
    omega
  refine ⟨by decide +kernel, by decide +kernel, by decide +kernel, fun n hn => ?_⟩
  have hh : ∀ n ∈ [4, 8, 10], (after (dig.take n) pit).machine.Honoured := by decide +kernel
  exact pieces_carved 100 _ (fun size hmem => hs size (List.mem_of_mem_take hmem))
    (hh n hn).reliable

end Quarry

end ChunkHeap
