import Mathlib
import ChunkHeap.Proofs.Preservation
import ChunkHeap.Proofs.Dealings
import ChunkHeap.Proofs.Voyage

/-!
# What a heap leaves to its neighbours

A heap writes only where it holds memory. So it leaves other heaps, what they
hold and their own parts of the platform alone.
-/

set_option autoImplicit false

namespace ChunkHeap

namespace World

variable {π : Type} {s : World π} {g : Ideal}

/-- A world mirrors the same ideal heap in any memory with the same bytes where
it holds ranges. -/
theorem Mirrors.congr {s' : World π} (hs : s.Mirrors g) (hheap : s'.heap = s.heap)
    (hheld : s'.machine.held = s.machine.held) (hcuts : s'.cuts = s.cuts)
    (hloans : s'.loans = s.loans)
    (hm : ∀ r ∈ s.machine.held, s.machine.memory.AgreesOn s'.machine.memory r) :
    s'.Mirrors g where
  kept := by
    rw [hheap, hheld, hcuts]
    refine ⟨hs.kept.represents.congr_extents fun e he => ?_, hs.kept.owns⟩
    obtain ⟨r, hr, hw⟩ := Owns.within_held hs.kept.owns he
    exact (hm r hr).mono hw
  live := hs.live.trans (by rw [hloans])
  loans := by
    rw [hloans, hheap]
    exact hs.loans

variable [Platform π]

omit [Platform π] in
theorem Mirrors.extent_within (hs : s.Mirrors g) {l : Loan} (hl : l ∈ s.loans) :
    ∃ r ∈ s.machine.held, l.place.extent.Within r :=
  hs.owns.within_held (List.mem_append_left _ (List.mem_map_of_mem (List.mem_map_of_mem hl)))

theorem Mirrors.footprint_within (hs : s.Mirrors g) {a : Action} (ha : s.Ready a)
    (hh : (s.step a).2.machine.Honoured) {t : Span} (ht : t ∈ s.footprint (.action a)) :
    ∃ r ∈ s.machine.held ++ (s.step a).2.machine.held, t.Within r := by
  have hs' := (hs.step_follows ha hh).mirrors
  have hbefore : ∀ l ∈ s.loans, t.Within l.place.extent →
      ∃ r ∈ s.machine.held ++ (s.step a).2.machine.held, t.Within r := by
    intro l hl hw
    obtain ⟨r, hr, hin⟩ := hs.extent_within hl
    exact ⟨r, List.mem_append_left _ hr, hw.trans hin⟩
  have hafter : ∀ l ∈ s.lentBy (.action a), t.Within l.place.extent →
      ∃ r ∈ s.machine.held ++ (s.step a).2.machine.held, t.Within r := by
    intro l hl hw
    have hmem := List.mem_of_mem_filter hl
    rw [hs.call_ready ha] at hmem
    obtain ⟨r, hr, hin⟩ := hs'.extent_within hmem
    exact ⟨r, List.mem_append_right _ hr, hw.trans hin⟩
  have hsound : ∀ l ∈ s.lentBy (.action a), l.Sound (s.step a).2.heap.id := by
    intro l hl
    have hmem := List.mem_of_mem_filter hl
    rw [hs.call_ready ha] at hmem
    exact hs'.loans l hmem
  simp only [footprint, List.mem_append, List.mem_flatMap] at ht
  rcases ht with ((⟨l, hl, ht⟩ | ht) | ⟨l, hl, ht⟩) | ht
  · exact hafter l hl ((hsound l hl).header_within ht)
  · split at ht
    · obtain ⟨l, hl, rfl⟩ := List.mem_map.mp ht
      exact hafter l hl (hsound l hl).data_within
    · simp at ht
  · exact hbefore l (List.mem_of_mem_filter hl) (Loan.Sound.link_within ht)
  · cases a with
    | write addr bytes =>
      obtain ⟨l, hl, hw⟩ := ha
      obtain rfl : t = ⟨addr, bytes.length⟩ := by simpa [Call.written] using ht
      exact hbefore l hl (hw.trans (hs.loans l hl).data_within)
    | _ => simp [Call.written] at ht

/-- A step writes only where ranges are held before or after it. -/
theorem Mirrors.frame (hs : s.Mirrors g) {a : Action} (ha : s.Ready a)
    (hh : (s.step a).2.machine.Honoured) {x : ℕ}
    (ho : Outside (s.machine.held ++ (s.step a).2.machine.held) x) :
    s.machine.memory x = (s.step a).2.machine.memory x := by
  obtain ⟨m, hprov, hm⟩ := hs.wrote_step ha hh
  have hfoot : Outside (s.footprint (.action a)) x := by
    intro t ht hx
    obtain ⟨r, hr, hw⟩ := hs.footprint_within ha hh ht
    exact ho r hr ⟨hw.1.trans hx.1, hx.2.trans_le hw.2⟩
  rw [← hm x hfoot]
  cases hprov with
  | kept => rfl
  | @granted len grant p asked noted =>
    have hheld : (s.step a).2.machine.held = ⟨grant.base, len⟩ :: s.machine.held := by
      have hcalls := heldFrom_calls [] (s.step a).2.machine.journal
      have hold := heldFrom_calls [] s.machine.journal
      rw [show (s.step a).2.machine.journal.filter Note.isCall = _ from noted,
        heldFrom_append] at hcalls
      exact hcalls.symm.trans (congrArg (Span.mk grant.base len :: ·) hold)
    have hx := ho ⟨grant.base, len⟩ (by simp [hheld])
    symm
    apply Memory.overlay_outside
    simp only [Span.Covers, Span.stop] at hx
    omega

/-- The world of a member after others have worked. -/
def elsewhere {σ ρ : Type} (s : World (σ × ρ)) (memory : Memory) (shared : σ) : World (σ × ρ) :=
  { s with machine := { s.machine with
    memory := memory
    platform := (shared, s.machine.platform.2) } }

end World

section

variable {π : Type} [Platform π]

theorem RegionSource.releaseBases_eq (R : ℕ) (m : Memory) (p : π) (bases : List ℕ) :
    ∃ p' notes, ∀ journal, releaseBases R ⟨m, p, journal⟩ bases = ⟨m, p', journal ++ notes⟩ := by
  induction bases generalizing p with
  | nil => exact ⟨p, [], fun journal => by simp [releaseBases]⟩
  | cons base bases ih =>
    obtain ⟨p', notes, hrest⟩ := ih (Platform.release p base R).platform
    refine ⟨p', .released base R (Platform.release p base R).accepted ::
      (Platform.release p base R).events.map .event ++ notes, fun journal => ?_⟩
    rw [releaseBases, Machine.release]
    simp only [Machine.log]
    rw [hrest, List.append_assoc]

/-- The end of a heap touches no memory, and what it notes does not depend on
what was noted before. -/
theorem Heap.drop_eq (h : Heap) (w : Machine π) : ∃ p notes, ∀ journal,
    h.drop { w with journal := journal } = ⟨w.memory, p, journal ++ notes⟩ := by
  obtain ⟨first, hfirst⟩ : ∃ first, ∀ journal, h.drop { w with journal := journal } =
      RegionSource.releaseBases h.regions.regionSize ⟨w.memory, w.platform, journal ++ first⟩
        h.regions.bases.reverse := by
    refine ⟨(if 0 < h.oversized then [.event (.droppingLiveOversized h.oversized)] else []) ++
      (if h.regions.bases.isEmpty then []
        else [.event (.releasingRegions h.regions.bases.length h.regions.regionSize)]), ?_⟩
    intro journal
    simp only [drop, RegionSource.releaseAll, Machine.report, Machine.log]
    split_ifs <;> simp
  obtain ⟨p, notes, hrest⟩ := RegionSource.releaseBases_eq h.regions.regionSize w.memory w.platform
    h.regions.bases.reverse
  exact ⟨p, first ++ notes, fun journal => by rw [hfirst, hrest, List.append_assoc]⟩

end

namespace Fleet

variable {σ ρ : Type} {f : Fleet σ ρ} {i j : ℕ} {m : Member ρ}

theorem lt_length (h : f.member? i = some m) : i < f.members.length := by
  by_contra hle
  simp [member?, List.getElem?_eq_none (Nat.le_of_not_lt hle)] at h

theorem member?_settle_self (hi : i < f.members.length) (heap : Option Heap)
    (w : Machine (σ × ρ)) :
    (f.settle i heap w).member? i = heap.map fun heap => ⟨heap, w.platform.2⟩ := by
  rw [member?, settle, List.getElem?_set_self hi]
  rfl

theorem member?_settle_other (hj : j ≠ i) (heap : Option Heap) (w : Machine (σ × ρ)) :
    (f.settle i heap w).member? j = f.member? j := by
  rw [member?, settle, List.getElem?_set_ne hj.symm]
  rfl

end Fleet

namespace Voyage

variable {σ ρ : Type} {v : Voyage σ ρ} {i j : ℕ} {s t : World (σ × ρ)} {x : ℕ × Deed} {g : Ideal}
  {a : Action}

theorem exists_member (hs : v.world? i = some s) : ∃ m, v.fleet.member? i = some m ∧
    s = (v.books i).world m.heap (v.fleet.machine m) := by
  obtain ⟨m, hm, rfl⟩ := Option.map_eq_some_iff.mp hs
  exact ⟨m, hm, rfl⟩

theorem world?_leave_self (hs : v.world? i = some s) (t : World (σ × ρ)) :
    (v.leave i (some t.heap) t.machine (.ofWorld t)).world? i = some t := by
  obtain ⟨m, hm, -⟩ := exists_member hs
  simp only [world?, leave, Fleet.member?_settle_self (Fleet.lt_length hm), Function.update_self]
  rfl

theorem world?_leave_none (hs : v.world? i = some s) (w : Machine (σ × ρ)) (b : Book) :
    (v.leave i none w b).world? i = none := by
  obtain ⟨m, hm, -⟩ := exists_member hs
  simp only [world?, leave, Fleet.member?_settle_self (Fleet.lt_length hm)]
  rfl

theorem world?_leave_other (hj : j ≠ i) (heap : Option Heap) (w : Machine (σ × ρ)) (b : Book) :
    (v.leave i heap w b).world? j =
      (v.world? j).map (·.elsewhere w.memory w.platform.1) := by
  simp only [world?, leave, Fleet.member?_settle_other hj, Function.update_of_ne hj,
    Option.map_map]
  rfl

/-- What another member's deed leaves as it was: the member with its part of the
platform, its book and all bytes of ranges that it holds. -/
structure Spares (v v' : Voyage σ ρ) (j : ℕ) : Prop where
  member : v'.fleet.member? j = v.fleet.member? j
  book : v'.books j = v.books j
  memory : ∀ r ∈ (v.books j).held, v.fleet.memory.AgreesOn v'.fleet.memory r

/-- Every member mirrors an ideal heap. -/
def Afloat (v : Voyage σ ρ) : Prop := ∀ i s, v.world? i = some s → ∃ g, s.Mirrors g

variable [Platform (σ × ρ)]

theorem act_eq (hs : v.world? i = some s) (a : Action) : v.act i a =
    some (((s.step a).1, (s.step a).2.heap.stats),
      v.leave i (some (s.step a).2.heap) (s.step a).2.machine (.ofWorld (s.step a).2)) := by
  obtain ⟨m, hm, rfl⟩ := exists_member hs
  simp only [act, Fleet.run, hm]
  rfl

theorem drop_eq (hs : v.world? i = some s) : v.drop i =
    some (v.leave i none (s.heap.drop s.machine)
      ⟨[], s.cuts, (s.heap.drop s.machine).journal⟩) := by
  obtain ⟨m, hm, rfl⟩ := exists_member hs
  obtain ⟨p, notes, hdrop⟩ := m.heap.drop_eq (v.fleet.machine m)
  have hquiet : m.heap.drop (v.fleet.machine m) = ⟨v.fleet.memory, p, notes⟩ := hdrop []
  simp only [drop, Fleet.drop, hm, Book.world, hdrop]
  change some _ = some _
  rw [hquiet]
  rfl

theorem next_act (hs : v.world? i = some s) (a : Action) : v.next (i, .act a) =
    v.leave i (some (s.step a).2.heap) (s.step a).2.machine (.ofWorld (s.step a).2) := by
  rw [next, act_eq hs]
  rfl

theorem next_drop (hs : v.world? i = some s) : v.next (i, .drop) =
    v.leave i none (s.heap.drop s.machine) ⟨[], s.cuts, (s.heap.drop s.machine).journal⟩ := by
  rw [next, drop_eq hs]
  rfl

/-- A deed is that of a member, which leaves its place with a machine and a book. -/
theorem next_eq (hx : v.Ready x) : ∃ s heap w b, v.world? x.1 = some s ∧
    v.next x = v.leave x.1 heap w b := by
  obtain ⟨i, d⟩ := x
  cases d with
  | act a =>
    obtain ⟨s, hs, -⟩ := hx
    exact ⟨s, _, _, _, hs, next_act hs a⟩
  | drop =>
    obtain ⟨s, hs⟩ := Option.isSome_iff_exists.mp hx
    exact ⟨s, _, _, _, hs, next_drop hs⟩

theorem length_next (hx : v.Ready x) :
    (v.next x).fleet.members.length = v.fleet.members.length := by
  obtain ⟨s, heap, w, b, -, heq⟩ := next_eq hx
  rw [heq]
  exact List.length_set

omit [Platform (σ × ρ)] in
theorem held_eq (hs : v.world? i = some s) : (v.books i).held = s.machine.held := by
  obtain ⟨m, -, rfl⟩ := exists_member hs
  rfl

omit [Platform (σ × ρ)] in
theorem world_lt_length (hs : v.world? i = some s) : i < v.fleet.members.length := by
  obtain ⟨m, hm, -⟩ := exists_member hs
  exact Fleet.lt_length hm

omit [Platform (σ × ρ)] in
theorem Lawful.honoured_world (hl : v.Lawful) (hs : v.world? i = some s) :
    s.machine.Honoured := by
  have hh := hl.honoured i (world_lt_length hs)
  obtain ⟨m, -, rfl⟩ := exists_member hs
  exact hh

theorem honoured_act (hl : (v.next (i, .act a)).Lawful) (hs : v.world? i = some s) :
    (s.step a).2.machine.Honoured := by
  rw [next_act hs] at hl
  exact hl.honoured_world (world?_leave_self hs _)

/-- The bytes that a member holds are not written by others. -/
theorem memory_next (hf : v.Afloat) (hx : v.Ready x) (hl : v.Lawful) (hl' : (v.next x).Lawful)
    (hj : j ≠ x.1) (hlen : j < v.fleet.members.length) {r : Span} (hr : r ∈ (v.books j).held) :
    v.fleet.memory.AgreesOn (v.next x).fleet.memory r := by
  obtain ⟨i, d⟩ := x
  intro y hy
  cases d with
  | act a =>
    obtain ⟨s, hs, ha⟩ := hx
    obtain ⟨g, hg⟩ := hf i s hs
    have hh := honoured_act hl' hs
    have hi := world_lt_length hs
    have hlen' := length_next (x := (i, .act a)) ⟨s, hs, ha⟩
    have hout : Outside (s.machine.held ++ (s.step a).2.machine.held) y := by
      intro t ht
      apply Span.Disjoint.not_covers _ (Span.Within.refl t) hy
      rcases List.mem_append.mp ht with ht | ht
      · rw [← held_eq hs] at ht
        exact hl.apart j hlen i hi hj r hr t ht
      · have hapart := hl'.apart j (by omega) i (by omega) hj
        rw [next_act hs] at hapart
        simp only [leave, Function.update_self, Function.update_of_ne hj] at hapart
        exact hapart r hr t ht
    have hframe := hg.frame ha hh hout
    obtain ⟨m, -, rfl⟩ := exists_member hs
    rw [next_act hs]
    exact hframe
  | drop =>
    obtain ⟨s, hs⟩ := Option.isSome_iff_exists.mp hx
    rw [next_drop hs]
    obtain ⟨p, notes, hdrop⟩ := s.heap.drop_eq s.machine
    obtain ⟨m, -, rfl⟩ := exists_member hs
    exact (congrArg (fun w => Machine.memory w y) (hdrop _)).symm

theorem spares_next (hf : v.Afloat) (hx : v.Ready x) (hl : v.Lawful) (hl' : (v.next x).Lawful)
    (hj : j ≠ x.1) (hlen : j < v.fleet.members.length) : Spares v (v.next x) j := by
  refine ⟨?_, ?_, fun r hr => memory_next hf hx hl hl' hj hlen hr⟩
  · obtain ⟨s, heap, w, b, -, heq⟩ := next_eq hx
    rw [heq]
    exact Fleet.member?_settle_other hj heap w
  · obtain ⟨s, heap, w, b, -, heq⟩ := next_eq hx
    rw [heq]
    exact Function.update_of_ne hj _ _

/-- A member finds itself as it was after another's deed. -/
theorem world?_next (hf : v.Afloat) (hx : v.Ready x) (hl : v.Lawful) (hl' : (v.next x).Lawful)
    (hj : j ≠ x.1) (ht : v.world? j = some t) (hg : t.Mirrors g) :
    ∃ t', (v.next x).world? j = some t' ∧ t'.Mirrors g ∧ t'.loans = t.loans ∧
      t'.machine.journal = t.machine.journal := by
  obtain ⟨s, heap, w, b, -, heq⟩ := next_eq hx
  have hmemory := fun r hr => memory_next hf hx hl hl' hj (world_lt_length ht) (r := r) hr
  rw [held_eq ht] at hmemory
  rw [heq] at hmemory ⊢
  refine ⟨t.elsewhere w.memory w.platform.1, ?_, ?_, rfl, rfl⟩
  · rw [world?_leave_other hj, ht]
    rfl
  · refine hg.congr rfl rfl rfl rfl fun r hr => ?_
    have hagree := hmemory r hr
    obtain ⟨m, -, rfl⟩ := exists_member ht
    exact hagree

theorem afloat_next (hf : v.Afloat) (hx : v.Ready x) (hl : v.Lawful) (hl' : (v.next x).Lawful) :
    (v.next x).Afloat := by
  intro j t ht
  by_cases hj : j = x.1
  · obtain ⟨i, d⟩ := x
    obtain rfl : j = i := hj
    cases d with
    | act a =>
      obtain ⟨s, hs, ha⟩ := hx
      obtain ⟨g, hg⟩ := hf j s hs
      have hh := honoured_act hl' hs
      rw [next_act hs, world?_leave_self hs] at ht
      obtain rfl := Option.some.inj ht
      exact ⟨_, (hg.step_follows ha hh).mirrors⟩
    | drop =>
      obtain ⟨s, hs⟩ := Option.isSome_iff_exists.mp hx
      rw [next_drop hs, world?_leave_none hs] at ht
      cases ht
  · obtain ⟨s, heap, w, b, -, heq⟩ := next_eq hx
    have hother := world?_leave_other (v := v) hj heap w b
    rw [← heq, ht] at hother
    obtain ⟨t₀, ht₀, -⟩ := Option.map_eq_some_iff.mp hother.symm
    obtain ⟨g, hg⟩ := hf j t₀ ht₀
    obtain ⟨t', ht', hg', -⟩ := world?_next hf hx hl hl' hj ht₀ hg
    obtain rfl := Option.some.inj (ht'.symm.trans ht)
    exact ⟨g, hg'⟩

omit [Platform (σ × ρ)] in
theorem books_journal (hs : v.world? i = some s) : (v.books i).journal = s.machine.journal := by
  obtain ⟨m, -, rfl⟩ := exists_member hs
  rfl

/-- No note is taken out of a book. -/
theorem journal_next (hx : v.Ready x) (i : ℕ) :
    (v.books i).journal <+: ((v.next x).books i).journal := by
  by_cases hi : i = x.1
  · obtain ⟨k, d⟩ := x
    obtain rfl : i = k := hi
    cases d with
    | act a =>
      obtain ⟨s, hs, -⟩ := hx
      rw [next_act hs, books_journal hs]
      simp only [leave, Function.update_self]
      exact s.grew_step a
    | drop =>
      obtain ⟨s, hs⟩ := Option.isSome_iff_exists.mp hx
      obtain ⟨p, notes, hdrop⟩ := s.heap.drop_eq s.machine
      rw [next_drop hs, books_journal hs]
      simp only [leave, Function.update_self]
      exact ⟨notes, (congrArg Machine.journal (hdrop s.machine.journal)).symm⟩
  · obtain ⟨s, heap, w, b, -, heq⟩ := next_eq hx
    rw [heq]
    simp only [leave, Function.update_of_ne hi]
    exact List.prefix_refl _

theorem journal_after {deeds : List (ℕ × Deed)} (hv : Valid deeds v) (i : ℕ) :
    (v.books i).journal <+: ((after deeds v).books i).journal := by
  induction deeds generalizing v with
  | nil => exact List.prefix_refl _
  | cons x deeds ih => exact (journal_next hv.1 i).trans (ih hv.2)

/-- An empty place stays empty. -/
theorem absent {deeds : List (ℕ × Deed)} (hv : Valid deeds v) (hi : v.world? i = none) :
    own i deeds = [] ∧ (trace deeds v).filter (·.1 = i) = [] ∧
      (after deeds v).books i = v.books i := by
  induction deeds generalizing v with
  | nil => exact ⟨rfl, rfl, rfl⟩
  | cons x deeds ih =>
    obtain ⟨s, heap, w, b, hs, heq⟩ := next_eq hv.1
    have hne : x.1 ≠ i := by
      rintro rfl
      rw [hi] at hs
      cases hs
    have hnext : (v.next x).world? i = none := by
      rw [heq, world?_leave_other hne.symm, hi]
      rfl
    obtain ⟨hown, htrace, hbook⟩ := ih hv.2 hnext
    refine ⟨?_, ?_, ?_⟩
    · rw [own, List.filter_cons_of_neg (by simpa using hne)]
      exact hown
    · rw [trace, List.filter_append, htrace, List.append_nil, List.filter_eq_nil_iff]
      intro y hy
      obtain ⟨z, -, rfl⟩ := List.mem_map.mp hy
      simpa using hne
    · rw [after, hbook, heq]
      exact Function.update_of_ne hne.symm _ _

theorem LawfulOn.head {deeds : List (ℕ × Deed)} (hl : LawfulOn deeds v) : v.Lawful := by
  cases deeds with
  | nil => exact hl
  | cons x deeds => exact hl.1

omit [Platform (σ × ρ)] in
theorem own_cons_self (i : ℕ) (d : Deed) (deeds : List (ℕ × Deed)) :
    own i ((i, d) :: deeds) = d :: own i deeds := by
  rw [own, List.filter_cons_of_pos (by simp)]
  rfl

omit [Platform (σ × ρ)] in
theorem own_cons_other {deeds : List (ℕ × Deed)} (hx : i ≠ x.1) :
    own i (x :: deeds) = own i deeds := by
  rw [own, List.filter_cons_of_neg (by simpa using hx.symm)]
  rfl

omit [Platform (σ × ρ)] in
theorem answers_books (hs : v.world? i = some s) :
    (v.books i).provider.answers = s.machine.provider.answers := by
  obtain ⟨m, -, rfl⟩ := exists_member hs
  rfl

theorem answers_after {deeds : List (ℕ × Deed)} (hv : Valid deeds v) (i : ℕ) :
    (v.books i).provider.answers <+: ((after deeds v).books i).provider.answers :=
  (List.IsPrefix.filter _ (journal_after hv i)).filterMap _

theorem trace_cons_other {deeds : List (ℕ × Deed)} (hx : i ≠ x.1) :
    (trace (x :: deeds) v).filter (·.1 = i) = (trace deeds (v.next x)).filter (·.1 = i) := by
  have hnone : ((v.said x).toList.map (Prod.mk x.1)).filter (·.1 = i) = [] := by
    rw [List.filter_eq_nil_iff]
    intro y hy
    obtain ⟨z, -, rfl⟩ := List.mem_map.mp hy
    simpa using hx.symm
  rw [trace, List.filter_append, hnone, List.nil_append]

end Voyage

end ChunkHeap
