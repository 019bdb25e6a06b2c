import Mathlib
import ChunkHeap.Proofs.Calls
import ChunkHeap.Proofs.Conservation
import ChunkHeap.Proofs.Requests
import ChunkHeap.Proofs.System

/-!
# Mappings match

Neither a heap nor the platform below it keeps the lengths that the system was
asked for. Yet rounding a length again gives the same number of pages, so each
release unmaps exactly what one reservation mapped. A heap that has ended
without oversized chunks leaves mapped what was mapped before it.
-/

set_option autoImplicit false

namespace ChunkHeap

open Mapper (pageSize pageSize_pos)

/-- The whole pages of the given size that are mapped for a range. -/
def Span.paged (page : ℕ) (s : Span) : Span := ⟨s.start, Word.ceil s.len page⟩

/-- The call to the system that a call to the platform leads to. -/
def Note.paged? (page : ℕ) : Note → Option Note
  | .reserved len base =>
      if Word.ceil len page < wordLimit then some (.reserved (Word.ceil len page) base) else none
  | .released base len accepted => some (.released base (Word.ceil len page) accepted)
  | .event _ => none

/-- The bytes of the pages that are mapped for ranges. -/
def pagesOf (page : ℕ) (held : List Span) : Set ℕ := {x | ∃ r ∈ held, x ∈ (r.paged page).bytes}

theorem Span.within_paged {page : ℕ} (hpage : 0 < page) (r : Span) : r.Within (r.paged page) :=
  ⟨Nat.le_refl _, Nat.add_le_add_left (Word.le_ceil r.len hpage) _⟩

theorem pagesOf_cons (page : ℕ) (r : Span) (held : List Span) :
    pagesOf page (r :: held) = pagesOf page held ∪ (r.paged page).bytes := by
  ext x
  simp only [pagesOf, Set.mem_union, Set.mem_ofPred_eq, List.exists_mem_cons_iff]
  exact or_comm

theorem pagesOf_perm {page : ℕ} {held held' : List Span} (h : held.Perm held') :
    pagesOf page held = pagesOf page held' := by
  ext x
  simp only [pagesOf, Set.mem_ofPred_eq, h.mem_iff]

variable {σ : Type} [Mapper σ]

namespace Pages

/-- What a reservation asks of the system: the least number of bytes in whole
pages that is enough, or nothing at all if that number is no word. -/
structure Asks (p : Pages (Logged σ)) (len whole : ℕ) : Prop where
  least : IsLeast {n | pageSize σ ∣ n ∧ len ≤ n} whole
  asked : whole < wordLimit → (p.reserve len).2.system.calls =
    p.system.calls ++ [.reserved whole ((p.reserve len).1.map Grant.base)]
  refused : wordLimit ≤ whole → p.reserve len = (none, p)

theorem rounded?_eq (page len : ℕ) : rounded? page len =
    if Word.ceil len page < wordLimit then some (Word.ceil len page) else none := rfl

theorem pageSize_logged : pageSize (Logged σ) = pageSize σ := rfl

theorem reserve_fits (p : Pages (Logged σ)) {len : ℕ}
    (h : Word.ceil len (pageSize σ) < wordLimit) : p.reserve len =
      ((Mapper.map p.system.system (Word.ceil len (pageSize σ))).1,
        ⟨⟨(Mapper.map p.system.system (Word.ceil len (pageSize σ))).2, p.system.calls ++
          [.reserved (Word.ceil len (pageSize σ))
            ((Mapper.map p.system.system (Word.ceil len (pageSize σ))).1.map Grant.base)]⟩⟩) := by
  rw [reserve, rounded?_eq, pageSize_logged, if_pos h]
  rfl

theorem reserve_refused (p : Pages (Logged σ)) {len : ℕ}
    (h : wordLimit ≤ Word.ceil len (pageSize σ)) : p.reserve len = (none, p) := by
  rw [reserve, rounded?_eq, pageSize_logged, if_neg (Nat.not_lt.mpr h)]

theorem asks (p : Pages (Logged σ)) (len : ℕ) : p.Asks len (Word.ceil len (pageSize σ)) where
  least := Word.isLeast_ceil len (pageSize_pos σ)
  asked := fun h => by rw [reserve_fits p h]
  refused := fun h => reserve_refused p h

theorem release_fits (p : Pages (Logged σ)) (addr : ℕ) {len : ℕ}
    (h : Word.ceil len (pageSize σ) < wordLimit) :
    (p.release addr len).accepted =
      (Mapper.unmap p.system.system addr (Word.ceil len (pageSize σ))).1 ∧
    (p.release addr len).platform =
      ⟨⟨(Mapper.unmap p.system.system addr (Word.ceil len (pageSize σ))).2, p.system.calls ++
        [.released addr (Word.ceil len (pageSize σ))
          (Mapper.unmap p.system.system addr (Word.ceil len (pageSize σ))).1]⟩⟩ := by
  rw [release, rounded?_eq, pageSize_logged, if_pos h]
  exact ⟨rfl, rfl⟩

end Pages

namespace Provider

variable {π : Type} {p p' : Provider π}

def held (p : Provider π) : List Span := heldFrom [] p.calls

/-- The calls to the system that the calls made lead to. -/
def systemCalls (page : ℕ) (p : Provider π) : List Note := p.calls.filterMap (Note.paged? page)

theorem held_snoc {n : Note} (h : p'.calls = p.calls ++ [n]) : p'.held = n.settle p.held := by
  rw [held, h, heldFrom_append]
  rfl

theorem systemCalls_snoc {page : ℕ} {n : Note} (h : p'.calls = p.calls ++ [n]) :
    p'.systemCalls page = p.systemCalls page ++ (n.paged? page).toList := by
  rw [systemCalls, h, List.filterMap_append]
  cases hn : n.paged? page with
  | none => rw [List.filterMap_cons_none hn]; rfl
  | some m => rw [List.filterMap_cons_some hn]; rfl

end Provider

/-- How a provider has dealt with a system since the system was as given. All
that it did is told by its own calls, which hold lengths before rounding. -/
structure Dealt (mapped : σ → Set ℕ) (s : Logged σ) (p : Provider (Pages (Logged σ))) : Prop where
  /-- The system was asked for pages and nothing else. -/
  calls : p.platform.system.calls = s.calls ++ p.systemCalls (pageSize σ)
  /-- Each range unmapped was mapped as it is and had not been unmapped since. -/
  due : DueFrom [] (p.systemCalls (pageSize σ))
  /-- The ranges mapped and not unmapped are the pages of the ranges held. -/
  held : (heldFrom [] (p.systemCalls (pageSize σ))).Perm (p.held.map (Span.paged (pageSize σ)))
  accepted : ∀ base len accepted, Note.released base len accepted ∈ p.calls → accepted = true
  honoured : HonouredFrom [] p.calls
  fit : ∀ r ∈ p.held, 0 < (r.paged (pageSize σ)).len ∧ pageSize σ ∣ r.start ∧
    (r.paged (pageSize σ)).len < wordLimit
  apart : (p.held.map (Span.paged (pageSize σ))).Pairwise Span.Disjoint
  fresh : ∀ r ∈ p.held, ∀ x ∈ (r.paged (pageSize σ)).bytes, x ∉ mapped s.system
  mapped : mapped p.platform.system.system = mapped s.system ∪ pagesOf (pageSize σ) p.held

namespace Dealt

variable {mapped : σ → Set ℕ} {s : Logged σ} {p p' : Provider (Pages (Logged σ))}

theorem start (mapped : σ → Set ℕ) (s : Logged σ) : Dealt mapped s ⟨⟨s⟩, []⟩ where
  calls := (List.append_nil _).symm
  due := trivial
  held := List.Perm.refl _
  accepted := by simp
  honoured := trivial
  fit := by simp [Provider.held, heldFrom]
  apart := List.Pairwise.nil
  fresh := by simp [Provider.held, heldFrom]
  mapped := by simp [Provider.held, heldFrom, pagesOf]

/-- The pages of a range held are mapped. -/
theorem bytes_mapped (h : Dealt mapped s p) {r : Span} (hr : r ∈ p.held) {x : ℕ}
    (hx : x ∈ (r.paged (pageSize σ)).bytes) : x ∈ mapped p.platform.system.system := by
  rw [h.mapped]
  exact Or.inr ⟨r, hr, hx⟩

theorem refused (h : Dealt mapped s p) {len : ℕ}
    (hcalls : p'.calls = p.calls ++ [.reserved len none])
    (hsystem : p'.platform.system.calls =
      p.platform.system.calls ++ (Note.paged? (pageSize σ) (.reserved len none)).toList)
    (hmapped : mapped p'.platform.system.system = mapped p.platform.system.system) :
    Dealt mapped s p' := by
  have hheld : p'.held = p.held := Provider.held_snoc hcalls
  have hpaged : p'.systemCalls (pageSize σ) = p.systemCalls (pageSize σ) ++
      (Note.paged? (pageSize σ) (.reserved len none)).toList := Provider.systemCalls_snoc hcalls
  -- the system refused as well, or it was not asked
  have hsame : heldFrom [] (p'.systemCalls (pageSize σ)) =
        heldFrom [] (p.systemCalls (pageSize σ)) ∧
      (DueFrom [] (p.systemCalls (pageSize σ)) → DueFrom [] (p'.systemCalls (pageSize σ))) := by
    rw [hpaged, heldFrom_append, dueFrom_append, Note.paged?]
    split_ifs
    · exact ⟨rfl, fun hd => ⟨hd, trivial, trivial⟩⟩
    · exact ⟨rfl, fun hd => ⟨hd, trivial⟩⟩
  constructor
  · rw [hsystem, h.calls, hpaged, List.append_assoc]
  · exact hsame.2 h.due
  · rw [hsame.1, hheld]
    exact h.held
  · rw [hcalls]
    simpa using h.accepted
  · rw [hcalls, honouredFrom_append]
    exact ⟨h.honoured, trivial, trivial⟩
  · rw [hheld]
    exact h.fit
  · rw [hheld]
    exact h.apart
  · rw [hheld]
    exact h.fresh
  · rw [hmapped, hheld]
    exact h.mapped

theorem granted (h : Dealt mapped s p) {base len : ℕ}
    (hfits : Word.ceil len (pageSize σ) < wordLimit)
    (hcalls : p'.calls = p.calls ++ [.reserved len (some base)])
    (hsystem : p'.platform.system.calls =
      p.platform.system.calls ++ [.reserved (Word.ceil len (pageSize σ)) (some base)])
    (hlen : 0 < Word.ceil len (pageSize σ)) (hbase : 0 < base) (haligned : pageSize σ ∣ base)
    (hlow : base + Word.ceil len (pageSize σ) ≤ layoutLimit)
    (hfresh : ∀ x ∈ Span.bytes ⟨base, Word.ceil len (pageSize σ)⟩,
      x ∉ mapped p.platform.system.system)
    (hmapped : mapped p'.platform.system.system =
      mapped p.platform.system.system ∪ Span.bytes ⟨base, Word.ceil len (pageSize σ)⟩) :
    Dealt mapped s p' := by
  have hheld : p'.held = ⟨base, len⟩ :: p.held := Provider.held_snoc hcalls
  have hpaged : p'.systemCalls (pageSize σ) =
      p.systemCalls (pageSize σ) ++ [.reserved (Word.ceil len (pageSize σ)) (some base)] := by
    rw [Provider.systemCalls_snoc hcalls, Note.paged?, if_pos hfits]
    rfl
  have happart : ∀ r ∈ p.held,
      Span.Disjoint (Span.paged (pageSize σ) ⟨base, len⟩) (r.paged (pageSize σ)) := fun r hr =>
    Span.disjoint_of_bytes hlen (h.fit r hr).1 fun x hx hx' => hfresh x hx (h.bytes_mapped hr hx')
  constructor
  · rw [hsystem, h.calls, hpaged, List.append_assoc]
  · rw [hpaged, dueFrom_append]
    exact ⟨h.due, trivial, trivial⟩
  · rw [hpaged, heldFrom_append, hheld]
    exact h.held.cons _
  · rw [hcalls]
    simpa using h.accepted
  · rw [hcalls, honouredFrom_append]
    have hwithin := Span.within_paged (pageSize_pos σ) ⟨base, len⟩
    refine ⟨h.honoured, ⟨hbase, ?_, ?_, ?_⟩, trivial⟩
    · exact (Mapper.eight_dvd_pageSize σ).trans haligned
    · exact hwithin.2.trans hlow
    · exact fun r hr => (happart r hr).mono hwithin (r.within_paged (pageSize_pos σ))
  · rw [hheld]
    exact List.forall_mem_cons.mpr ⟨⟨hlen, haligned, hfits⟩, h.fit⟩
  · rw [hheld, List.map_cons, List.pairwise_cons]
    exact ⟨List.forall_mem_map.mpr happart, h.apart⟩
  · rw [hheld]
    refine List.forall_mem_cons.mpr ⟨fun x hx hx' => hfresh x hx ?_, h.fresh⟩
    rw [h.mapped]
    exact Or.inl hx'
  · rw [hmapped, hheld, pagesOf_cons, h.mapped, Set.union_assoc]
    rfl

variable (hsys : Mapper.Lawful mapped)
include hsys

theorem reserve (h : Dealt mapped s p) (len : ℕ) : Dealt mapped s (p.reserve len).2 := by
  by_cases hfits : Word.ceil len (pageSize σ) < wordLimit
  · have hr := Pages.reserve_fits p.platform hfits
    rcases hm : Mapper.map p.platform.system.system (Word.ceil len (pageSize σ)) with ⟨_ | g, s'⟩
    · have hp : p.reserve len = (none, ⟨⟨⟨s', p.platform.system.calls ++
          [.reserved (Word.ceil len (pageSize σ)) none]⟩⟩, p.calls ++ [.reserved len none]⟩) := by
        rw [hm] at hr
        simp only [Provider.reserve, Platform.reserve, hr]
        rfl
      rw [hp]
      refine h.refused rfl ?_ (hsys.refused hm)
      rw [Note.paged?, if_pos hfits]
      rfl
    · have hp : p.reserve len = (some g.base, ⟨⟨⟨s', p.platform.system.calls ++
          [.reserved (Word.ceil len (pageSize σ)) (some g.base)]⟩⟩,
            p.calls ++ [.reserved len (some g.base)]⟩) := by
        rw [hm] at hr
        simp only [Provider.reserve, Platform.reserve, hr]
        rfl
      obtain ⟨hlen, hbase, haligned, hlow, hfresh, hmapped⟩ := hsys.granted hm
      rw [hp]
      exact h.granted hfits rfl rfl hlen hbase haligned hlow hfresh hmapped
  · have hr := Pages.reserve_refused p.platform (Nat.le_of_not_lt hfits)
    have hp : p.reserve len = (none, ⟨p.platform, p.calls ++ [.reserved len none]⟩) := by
      simp only [Provider.reserve, Platform.reserve, hr]
      rfl
    rw [hp]
    refine h.refused rfl ?_ rfl
    rw [Note.paged?, if_neg hfits]
    exact (List.append_nil _).symm

/-- A range held is unmapped as it was mapped, and the rest stays mapped. -/
theorem release (h : Dealt mapped s p) {r : Span} (hr : r ∈ p.held) :
    Dealt mapped s (p.release r.start r.len) := by
  obtain ⟨hlen, haligned, hfits⟩ := h.fit r hr
  obtain ⟨haccepted, hplatform⟩ := Pages.release_fits p.platform r.start hfits
  obtain ⟨htrue, hunmapped⟩ := hsys.unmapped hlen haligned (Word.dvd_ceil _ _)
    fun x hx => h.bytes_mapped hr hx
  change (Mapper.unmap p.platform.system.system r.start
    (Word.ceil r.len (pageSize σ))).1 = _ at htrue
  rw [htrue] at haccepted hplatform
  have hcalls : (p.release r.start r.len).calls =
      p.calls ++ [.released r.start r.len true] := by
    rw [← haccepted]
    rfl
  have hsystem : (p.release r.start r.len).platform = _ := hplatform
  have hheld : (p.release r.start r.len).held = p.held.erase r := Provider.held_snoc hcalls
  have hpaged : (p.release r.start r.len).systemCalls (pageSize σ) =
      p.systemCalls (pageSize σ) ++ [.released r.start (Word.ceil r.len (pageSize σ)) true] :=
    Provider.systemCalls_snoc hcalls
  have hsplit := List.perm_cons_erase hr
  have hpages := h.held.trans (hsplit.map (Span.paged (pageSize σ)))
  have happart := (Span.pairwise_disjoint_perm (hsplit.map (Span.paged (pageSize σ)))).mp h.apart
  rw [List.map_cons, List.pairwise_cons, List.forall_mem_map] at happart
  constructor
  · rw [hsystem, hpaged, h.calls, List.append_assoc]
  · rw [hpaged, dueFrom_append]
    exact ⟨h.due, hpages.mem_iff.mpr List.mem_cons_self, trivial⟩
  · rw [hpaged, heldFrom_append, hheld]
    have herase := hpages.erase (r.paged (pageSize σ))
    rwa [List.map_cons, List.erase_cons_head] at herase
  · rw [hcalls]
    intro base len accepted hmem
    rcases List.mem_append.mp hmem with hmem | hmem
    · exact h.accepted base len accepted hmem
    · simp_all
  · rw [hcalls, honouredFrom_append]
    exact ⟨h.honoured, trivial, trivial⟩
  · rw [hheld]
    exact fun q hq => h.fit q (List.mem_of_mem_erase hq)
  · rw [hheld]
    exact happart.2
  · rw [hheld]
    exact fun q hq => h.fresh q (List.mem_of_mem_erase hq)
  · -- the pages of `r` are those of no other range held, nor were they mapped at first
    have hothers : ∀ x ∈ (r.paged (pageSize σ)).bytes,
        x ∉ pagesOf (pageSize σ) (p.held.erase r) := by
      rintro x hx ⟨q, hq, hxq⟩
      exact (happart.1 q hq).not_mem_bytes hx hxq
    rw [hsystem, hheld]
    refine hunmapped.trans ?_
    change mapped p.platform.system.system \ (r.paged (pageSize σ)).bytes = _
    rw [h.mapped, pagesOf_perm hsplit, pagesOf_cons, ← Set.union_assoc]
    apply Set.union_sdiff_cancel_right
    rintro x ⟨hx | hx, hx'⟩
    · exact h.fresh r hr x hx' hx
    · exact hothers x hx' hx

theorem stable : Machine.Stable fun w : Machine (Pages (Logged σ)) =>
    Dealt mapped s w.provider where
  reserve := by
    intro w len h
    have hr := h.reserve hsys len
    have hp : w.provider.reserve len = ((w.reserve len).1, (w.reserve len).2.provider) :=
      w.provider_reserve rfl
    rwa [hp] at hr
  report := by
    intro w e h
    rwa [w.provider_report]
  write := fun w m h => h

theorem giveBack (h : Dealt mapped s p) {place : Place} (g : Ideal)
    (hheld : ∀ r ∈ place.reservation?, r ∈ p.held) : Dealt mapped s (g.giveBack place p).2 := by
  cases place with
  | pooled c chunk padded => exact h
  | reserved base len => exact h.release hsys (hheld ⟨base, len⟩ rfl)

theorem releaseBases {w : Machine (Pages (Logged σ))} (h : Dealt mapped s w.provider) {R : ℕ}
    {bases : List ℕ} {rest : List Span}
    (hp : w.provider.held.Perm (bases.map (Span.mk · R) ++ rest)) :
    Dealt mapped s (RegionSource.releaseBases R w bases).provider ∧
      (RegionSource.releaseBases R w bases).provider.held.Perm rest := by
  induction bases generalizing w with
  | nil => exact ⟨h, hp⟩
  | cons base bases ih =>
    have hmem : ⟨base, R⟩ ∈ w.provider.held := hp.mem_iff.mpr List.mem_cons_self
    have hnext := h.release hsys hmem
    obtain ⟨accepted, hcalls⟩ := w.provider.calls_release base R
    have hheld : (w.provider.release base R).held = w.provider.held.erase ⟨base, R⟩ :=
      Provider.held_snoc hcalls
    have herase := hp.erase ⟨base, R⟩
    rw [List.map_cons, List.cons_append, List.erase_cons_head, ← hheld] at herase
    rw [← w.provider_release] at hnext herase
    exact ih hnext herase

end Dealt

namespace World

variable {mapped : σ → Set ℕ} {s : Logged σ} {w : World (Pages (Logged σ))} {g : Ideal}

omit [Mapper σ] in
theorem held_provider (w : World (Pages (Logged σ))) : w.machine.provider.held = w.machine.held :=
  heldFrom_calls _ _

namespace Mirrors

variable (hsys : Mapper.Lawful mapped)
include hsys

theorem dealt_free (hw : w.Mirrors g) {l : Loan} (hl : l ∈ w.loans)
    (h : Dealt mapped s w.machine.provider) :
    Dealt mapped s (g.free l.ptr w.machine.provider).2 := by
  rw [Ideal.free, hw.lookup_eq hl]
  apply h.giveBack hsys
  intro r hr
  rw [held_provider, hw.owns.regions.mem_iff, List.mem_append, List.mem_filterMap]
  exact Or.inr ⟨l.place, List.mem_map_of_mem hl, hr⟩

theorem dealt_step (hw : w.Mirrors g) {a : Action} (ha : w.Ready a)
    (h : Dealt mapped s w.machine.provider) :
    Dealt mapped s (w.step a).2.machine.provider := by
  have halloc := fun size align => (Dealt.stable hsys).alloc h w.heap size align
  cases a with
  | alloc size align =>
    rw [machine_alloc]
    exact halloc size align
  | allocate layout zeroed =>
    rw [(w.calm_allocate layout zeroed).provider]
    exact halloc layout.size layout.align
  | free ptr =>
    rw [(hw.free_step_follows ha).provider]
    obtain ⟨l, hl, rfl⟩ := ha
    exact hw.dealt_free hsys hl h
  | deallocate block =>
    rw [(hw.deallocate_follows ha).provider]
    obtain ⟨l, hl, hblock⟩ := ha
    have hfree := hw.dealt_free hsys hl h
    rwa [← (hw.block_eq hl hblock).1] at hfree
  | paddedSize block => exact h
  | write addr bytes => exact h

/-- Nothing need be assumed of the platform here: whatever is dealt with a lawful
system is honoured. -/
theorem dealt_call (hw : w.Mirrors g) {c : Call} (hc : w.Allowed c)
    (h : Dealt mapped s w.machine.provider) :
    Dealt mapped s (w.call c).2.machine.provider ∧ ∃ g', (w.call c).2.Mirrors g' := by
  have hnext : Dealt mapped s (w.call c).2.machine.provider := by
    rcases hw.call_cases hc with heq | ⟨a, -, ha, heq⟩
    · rwa [heq]
    · rw [heq]
      exact hw.dealt_step hsys ha h
  exact ⟨hnext, hw.call_mirrors hc ((honouredFrom_calls _ _).mp hnext.honoured)⟩

theorem dealt_calls {cs : List Call} (hw : w.Mirrors g) (hv : AllAllowed cs w)
    (h : Dealt mapped s w.machine.provider) :
    Dealt mapped s (calls cs w).machine.provider ∧ ∃ g', (calls cs w).Mirrors g' := by
  induction cs generalizing w g with
  | nil => exact ⟨h, g, hw⟩
  | cons c cs ih =>
    obtain ⟨hnext, g', hw'⟩ := hw.dealt_call hsys hv.1 h
    exact ih hw' hv.2 hnext

theorem dealt_drop (hw : w.Mirrors g) (h : Dealt mapped s w.machine.provider) :
    Dealt mapped s (w.heap.drop w.machine).provider ∧
      (w.heap.drop w.machine).provider.held.Perm w.lentReservations := by
  have hperm : w.machine.provider.held.Perm
      (w.heap.regions.bases.reverse.map (Span.mk · w.heap.regions.regionSize) ++
        w.lentReservations) := by
    rw [held_provider, hw.kept.represents.regions, List.map_reverse]
    exact hw.owns.regions.trans ((List.reverse_perm _).symm.append_right _)
  have hall : ∀ w' : Machine (Pages (Logged σ)), w'.provider = w.machine.provider →
      Dealt mapped s (RegionSource.releaseBases w.heap.regions.regionSize w'
        w.heap.regions.bases.reverse).provider ∧
      (RegionSource.releaseBases w.heap.regions.regionSize w'
        w.heap.regions.bases.reverse).provider.held.Perm w.lentReservations := by
    intro w' hw'
    rw [← hw'] at h hperm
    exact h.releaseBases hsys hperm
  simp only [Heap.drop, RegionSource.releaseAll]
  -- what is reported before the releases is no call
  apply hall
  split_ifs <;> simp

end Mirrors

omit [Mapper σ] in
theorem Mirrors.lentReservations_nil (hw : w.Mirrors g) (h : w.heap.oversized = 0) :
    w.lentReservations = [] := by
  have hcount := hw.owns.oversized
  rw [← hw.kept.represents.oversized, h] at hcount
  exact List.length_eq_zero_iff.mp hcount.symm

/-- A heap over a lawful system, whatever its users call: the system is asked for
whole pages and unmaps just what it has mapped, during the run and at its end.
When no oversized chunk is lent at the end, all is mapped as at the start. -/
theorem mappings_matched {mapped : σ → Set ℕ} (hsys : Mapper.Lawful mapped) {h : Heap}
    (hf : h.Fresh) (m : Machine (Pages (Logged σ))) {cs : List Call}
    (hv : AllAllowed cs (start h m)) :
    (∀ (p : Pages (Logged σ)) (len : ℕ), ∃ whole, p.Asks len whole) ∧
    Dealt mapped m.platform.system (calls cs (start h m)).machine.provider ∧
    Dealt mapped m.platform.system
      ((calls cs (start h m)).heap.drop (calls cs (start h m)).machine).provider ∧
    ((calls cs (start h m)).heap.drop (calls cs (start h m)).machine).provider.held.Perm
      (calls cs (start h m)).lentReservations ∧
    ((calls cs (start h m)).heap.oversized = 0 →
      mapped ((calls cs (start h m)).heap.drop
        (calls cs (start h m)).machine).platform.system.system =
        mapped m.platform.system.system) := by
  obtain ⟨hrun, g, hw⟩ := (hf.mirrors m).dealt_calls hsys hv (Dealt.start mapped _)
  obtain ⟨hdrop, hheld⟩ := hw.dealt_drop hsys hrun
  refine ⟨fun p len => ⟨_, p.asks len⟩, hrun, hdrop, hheld, fun hnone => ?_⟩
  have hempty := hheld
  rw [hw.lentReservations_nil hnone] at hempty
  refine hdrop.mapped.trans ?_
  rw [hempty.eq_nil]
  simp [pagesOf]

/-- A heap over an address space in which nothing is mapped yet. -/
def onSystem : World (Pages (Logged AddressSpace)) :=
  start (Heap.empty 7 defaultRegionSize) { memory := .zero, platform := ⟨{ system := {} }⟩ }

/-- Calls that lead to a region and to a chunk of its own, which is given back. -/
def visit : List Call :=
  [.action (.alloc 16 8), .action (.alloc 2000000 64), .stats, .action (.free 0x7fffffe17040)]

theorem mappings_matched_visit :
    AllAllowed visit onSystem ∧ (calls visit onSystem).heap.oversized = 0 ∧
    (calls visit onSystem).machine.platform.system.calls =
      [.reserved 4194304 (some 0x7f7fffc00000), .reserved 2002944 (some 0x7fffffe17000),
        .released 0x7fffffe17000 2002944 true] ∧
    Dealt AddressSpace.bytes { system := {} } (calls visit onSystem).machine.provider ∧
    AddressSpace.bytes ((calls visit onSystem).heap.drop
      (calls visit onSystem).machine).platform.system.system = AddressSpace.bytes {} := by
  have hv : AllAllowed visit onSystem := by decide +kernel
  have hnone : (calls visit onSystem).heap.oversized = 0 := by decide +kernel
  have hcalls : (calls visit onSystem).machine.platform.system.calls =
      [.reserved 4194304 (some 0x7f7fffc00000), .reserved 2002944 (some 0x7fffffe17000),
        .released 0x7fffffe17000 2002944 true] := by decide +kernel
  obtain ⟨-, hrun, -, -, hdrop⟩ := mappings_matched AddressSpace.lawful (.plain 7) _ hv
  exact ⟨hv, hnone, hcalls, hrun, hdrop hnone⟩

end World

end ChunkHeap
