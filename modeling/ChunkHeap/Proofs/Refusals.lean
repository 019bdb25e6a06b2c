import Mathlib
import ChunkHeap.Proofs.Reuse
import ChunkHeap.Proofs.Twins

/-!
# Requests that are refused

A request that is refused leaves heap and memory as they were and makes one call
at most, which is refused as well. So a run goes on as if it had never been made.
Free chunks and the room left in a region are there for later requests, whatever
the platform has refused.
-/

set_option autoImplicit false

namespace ChunkHeap

/-- The call that a refusal goes back to. -/
def Refusal.call? : Refusal → Option Note
  | .outOfMemory len => some (.reserved len none)
  | _ => none

def Note.isRefused : Note → Bool
  | .reserved _ none => true
  | _ => false

def Answer.failure? : Answer → Option Failure
  | .pointer (.error failure) => some failure
  | .block (.error failure) => some failure
  | _ => none

/-- The bases of the ranges granted, the oldest first. -/
def Provider.grants {π : Type} (p : Provider π) : List ℕ := p.answers.filterMap id

namespace Ideal

variable {π : Type} [Platform π]

/-- How a request can end. The platform is asked once at most, and a refusal
leaves the heap as it is. -/
inductive Ends (g : Ideal) (p : Provider π) : Except Refusal ℕ × Ideal × Provider π → Prop
  | declined {why : Refusal} (unasked : why.call? = none) : Ends g p (.error why, g, p)
  | refused {len : ℕ} {p' : Provider π} (asked : p.reserve len = (none, p')) :
      Ends g p (.error (.outOfMemory len), g, p')
  | supplied (value : ℕ) (g' : Ideal) : Ends g p (.ok value, g', p)
  | granted {len base : ℕ} {p' : Provider π} (asked : p.reserve len = (some base, p'))
      (value : ℕ) (g' : Ideal) : Ends g p (.ok value, g', p')

variable (g : Ideal) (p : Provider π)

theorem ends_cut (padded : ℕ) : Ends g p (g.cut padded p) := by
  unfold cut
  split
  · exact .supplied _ _
  · split
    · next ha => exact .refused ha
    · next ha => exact .granted ha _ _

theorem ends_draw (c : SizeClass) (padded : ℕ) : Ends g p (g.draw c padded p) := by
  unfold draw
  split
  · exact .supplied _ _
  · exact g.ends_cut p padded

theorem ends_takeOversized (total : ℕ) : Ends g p (g.takeOversized total p) := by
  simp only [takeOversized]
  split_ifs
  · exact .declined rfl
  · split
    · next ha => exact .refused ha
    · next ha => exact .granted ha _ _

theorem ends_take (total : ℕ) : Ends g p (g.take total p) := by
  unfold take
  split
  · exact g.ends_draw p _ _
  · exact g.ends_takeOversized p total

theorem ends_alloc (size align : ℕ) : Ends g p (g.alloc size align p) := by
  have ht := g.ends_take p (Chunk.headerSize + size + align)
  simp only [alloc]
  split_ifs
  · exact .declined rfl
  · exact .declined rfl
  · generalize g.take (Chunk.headerSize + size + align) p = x at ht
    cases ht with
    | declined unasked => exact .declined unasked
    | refused asked => exact .refused asked
    | supplied value g' => exact .supplied _ _
    | granted asked value g' => exact .granted asked _ _

variable {g p} {size align : ℕ}

/-- A refusal tells whether the platform was asked. -/
theorem Ends.calls_of_error {why : Refusal} {g' : Ideal} {p' : Provider π}
    (h : Ends g p (.error why, g', p')) : p'.calls = p.calls ++ why.call?.toList ∧
      (why.call? = none → p' = p) := by
  cases h with
  | declined unasked =>
    rw [unasked]
    exact ⟨(List.append_nil _).symm, fun _ => rfl⟩
  | refused asked => exact ⟨Provider.calls_reserve asked, fun h => by cases h⟩

/-- A request that succeeds makes no call that is refused. -/
theorem Ends.grown_of_ok {value : ℕ} {g' : Ideal} {p' : Provider π}
    (h : Ends g p (.ok value, g', p')) :
    p' = p ∨ ∃ len base, p'.calls = p.calls ++ [.reserved len (some base)] := by
  cases h with
  | supplied => exact Or.inl rfl
  | granted asked => exact Or.inr ⟨_, _, Provider.calls_reserve asked⟩

/-- A request is answered as its allocation ends. -/
theorem step_request {a : Action} (ha : a.asks? = some (size, align)) :
    (g.step a p).2 = (g.alloc size align p).2 ∧
    (g.step a p).1.ptr? = (g.alloc size align p).1.toOption ∧
    ((g.step a p).1.failure? = none → ∃ ptr, (g.alloc size align p).1 = .ok ptr) := by
  rcases Action.eq_of_asks ha with rfl | ⟨layout, zeroed, rfl, rfl, rfl⟩
  · simp only [step]
    rcases g.alloc size align p with ⟨_ | ptr, g', p'⟩
    · exact ⟨trivial, rfl, fun h => by cases h⟩
    · exact ⟨trivial, rfl, fun _ => ⟨ptr, rfl⟩⟩
  · simp only [step]
    rcases g.alloc layout.size layout.align p with ⟨_ | ptr, g', p'⟩
    · exact ⟨trivial, rfl, fun h => by cases h⟩
    · exact ⟨trivial, rfl, fun _ => ⟨ptr, rfl⟩⟩

theorem requests_free (ptr : ℕ) : (g.free ptr p).2.requests = p.requests ∨
    ∃ base len, (g.free ptr p).2.requests = p.requests ++ [.released base len true] := by
  unfold free
  split
  · exact Or.inl rfl
  · next place _ =>
    cases place with
    | pooled c chunk padded => exact Or.inl rfl
    | reserved base len =>
      right
      obtain ⟨accepted, hcalls⟩ := p.calls_release base len
      exact ⟨base, len, by simp [giveBack, Provider.requests, hcalls, Note.taken]⟩

/-- A step that does not fail makes no call that is refused. -/
theorem unrefused_step {a : Action} (hf : (g.step a p).1.failure? = none) {notes : List Note}
    (hn : (g.step a p).2.2.requests = p.requests ++ notes) : ∀ n ∈ notes, !n.isRefused := by
  have hrequest : ∀ size align, a.asks? = some (size, align) → ∀ n ∈ notes, !n.isRefused := by
    intro size align ha
    obtain ⟨hstep, -, hok⟩ := step_request (g := g) (p := p) ha
    obtain ⟨ptr, hptr⟩ := hok hf
    have hends := g.ends_alloc p size align
    rw [hstep] at hn
    rcases hx : g.alloc size align p with ⟨result, g', p'⟩
    rw [hx] at hptr hn hends
    obtain rfl : result = .ok ptr := hptr
    rcases hends.grown_of_ok with rfl | ⟨len, base, hcalls⟩
    · simp [List.self_eq_append_right.mp hn]
    · simp only [Provider.requests, hcalls, List.map_append, List.append_cancel_left_eq] at hn
      simp [← hn, Note.taken, Note.isRefused]
  have hfree : ∀ ptr, (g.step a p).2.2 = (g.free ptr p).2 → ∀ n ∈ notes, !n.isRefused := by
    intro ptr hstep
    rw [hstep] at hn
    rcases requests_free (g := g) (p := p) ptr with heq | ⟨base, len, heq⟩
    · rw [heq] at hn
      simp [List.self_eq_append_right.mp hn]
    · rw [heq, List.append_cancel_left_eq] at hn
      simp [← hn, Note.isRefused]
  cases a with
  | alloc size align => exact hrequest _ _ rfl
  | allocate layout zeroed => exact hrequest _ _ rfl
  | free ptr => exact hfree ptr rfl
  | deallocate block => exact hfree block.ptr rfl
  | paddedSize block => simp [List.self_eq_append_right.mp hn]
  | write addr bytes => simp [List.self_eq_append_right.mp hn]

theorem alloc_room {chunk : ℕ} {c : SizeClass} (ha : Heap.alignmentAllowed align = true)
    (hc : Regime.ofSize (Chunk.headerSize + size + align) = .pooled c)
    (hs : g.stack c (c.padded size align) = []) (hr : g.room (c.padded size align) = some chunk)
    (p : Provider π) : ∃ ptr g', g.alloc size align p = (.ok ptr, g', p) := by
  have htake : g.take (Chunk.headerSize + size + align) p =
      (.ok chunk, { g with cursor := g.cursor + c.padded size align }, p) := by
    rw [take, hc]
    simp only [draw]
    rw [← SizeClass.padded, hs]
    simp only [cut, hr]
  exact ⟨_, _, alloc_taken ha (Regime.lt_wordLimit hc) htake⟩

end Ideal

namespace World

variable {π ρ : Type} {s s' : World π} {t : World ρ} {g : Ideal}

/-- All that a refused request leaves as it was. Calls are those to the platform. -/
structure Untouched (s s' : World π) (why : Refusal) : Prop where
  heap : s'.heap = s.heap
  memory : s'.machine.memory = s.machine.memory
  loans : s'.loans = s.loans
  cuts : s'.cuts = s.cuts
  calls : s'.machine.provider.calls = s.machine.provider.calls ++ why.call?.toList
  platform : why.call? = none → s'.machine.platform = s.machine.platform

/-- The call of a refused request is refused. -/
theorem Untouched.requests {why : Refusal} (h : Untouched s s' why) :
    (s'.machine.provider.requests.filter fun n => !n.isRefused) =
      s.machine.provider.requests.filter fun n => !n.isRefused := by
  have hrefused : (why.call?.toList.map Note.taken).filter (fun n => !n.isRefused) = [] := by
    cases why <;> rfl
  rw [Provider.requests.eq_def s'.machine.provider, h.calls, List.map_append, List.filter_append,
    hrefused, List.append_nil]
  rfl

/-- A class has a free chunk for a request, or its region has room for one. -/
def Stocked (s : World π) (c : SizeClass) (size align : ℕ) : Prop :=
  (∃ i, (s.heap.tables c).bucket (c.padded size align) = .ok i ∧
    (s.heap.tables c).heads.get i ≠ none) ∨
  (s.heap.regions.bases ≠ [] ∧
    s.heap.regions.cursor + c.padded size align ≤ s.heap.regions.regionSize)

theorem untouched_settle {why : Refusal} {w' : Machine π}
    (hm : w'.memory = s.machine.memory)
    (hcalls : w'.provider.calls = s.machine.provider.calls ++ why.call?.toList)
    (hcalm : why.call? = none → w'.provider = s.machine.provider) :
    Untouched s (s.settle s.heap w' s.loans) why := by
  refine ⟨rfl, hm, rfl, ?_, hcalls, fun h => congrArg Provider.platform (hcalm h)⟩
  rw [settle, RegionSource.grown_self]
  rfl

variable [Platform π] [Platform ρ]

/-- The actions of a run without the requests that fail. -/
def served : List Action → World π → List Action
  | [], _ => []
  | a :: acts, s =>
      if (s.step a).1.failure?.isNone then a :: served acts (s.step a).2
      else served acts (s.step a).2

/-- What failures leave behind: nothing, and what is in stock is still lent
without a call. -/
structure Robust (s : World π) (a : Action) : Prop where
  untouched : ∀ failure, (s.step a).1.failure? = some failure →
    ∃ why, failure = .refused why ∧ Untouched s (s.step a).2 why
  stocked : ∀ size align c, a.Pools size align c → align.isPowerOfTwo → s.Stocked c size align →
    (∃ ptr, (s.step a).1.ptr? = some ptr) ∧
      (s.step a).2.machine.provider = s.machine.provider

/-- `t` goes through the run of `s` without the failures. -/
structure Condensed (acts : List Action) (s : World π) (t : World ρ) : Prop where
  valid : Valid (served acts s) t
  trace : trace (served acts s) t = (trace acts s).filter fun x => x.1.failure?.isNone
  loans : (after (served acts s) t).loans = (after acts s).loans
  requests : (after (served acts s) t).machine.provider.requests =
    (after acts s).machine.provider.requests.filter fun n => !n.isRefused

omit [Platform π] in
theorem ready_request {a : Action} {size align : ℕ} (ha : a.asks? = some (size, align)) :
    s.Ready a := by
  rcases Action.eq_of_asks ha with rfl | ⟨layout, zeroed, rfl, -⟩
  · trivial
  · trivial

namespace Mirrors

theorem untouched (hs : s.Mirrors g) {a : Action} (hh : (s.step a).2.machine.Honoured)
    {failure : Failure} (hf : (s.step a).1.failure? = some failure) :
    ∃ why, failure = .refused why ∧ Untouched s (s.step a).2 why ∧ (s.step a).2.Mirrors g := by
  cases a with
  | alloc size align =>
    have hends := g.ends_alloc s.machine.provider size align
    have hl := alloc_lent hs (s.machine_alloc size align ▸ hh)
    simp only [step] at hf ⊢
    generalize s.heap.alloc size align s.machine = x at hl hf ⊢
    generalize g.alloc size align s.machine.provider = y at hl hends
    cases hl with
    | @refused w' why memory held =>
      obtain ⟨hcalls, hcalm⟩ := hends.calls_of_error
      exact ⟨why, (Option.some.inj hf).symm, untouched_settle memory hcalls hcalm,
        hs.refused memory held⟩
    | lent same mirrors => simp [Answer.failure?] at hf
  | allocate layout zeroed =>
    have hends := g.ends_alloc s.machine.provider layout.size layout.align
    have halloc := (s.calm_allocate layout zeroed).honoured_iff.mp hh
    rcases hs.allocate_lent halloc with ⟨why, w', hx, hy, hm, hheld⟩ |
      ⟨ptr, h', w', g', hx, -, -⟩
    · have hstep : s.step (.allocate layout zeroed) =
          (.block (.error (.refused why)), s.settle s.heap w' s.loans) := by
        cases zeroed <;> simp [step, Heap.allocateZeroed, hx]
      rw [hstep] at hf ⊢
      rw [hy] at hends
      obtain ⟨hcalls, hcalm⟩ := hends.calls_of_error
      exact ⟨why, (Option.some.inj hf).symm, untouched_settle hm hcalls hcalm,
        hs.refused hm hheld⟩
    · cases zeroed <;> simp [step, Heap.allocateZeroed, hx, Answer.failure?] at hf
  | free ptr => simp [step, Answer.failure?] at hf
  | deallocate block => simp [step, Answer.failure?] at hf
  | paddedSize block => simp [step, Answer.failure?] at hf
  | write addr bytes => simp [step, Answer.failure?] at hf

theorem stocked (hs : s.Mirrors g) {a : Action} {size align : ℕ} {c : SizeClass}
    (hh : (s.step a).2.machine.Honoured) (hp : a.Pools size align c) (ha : align.isPowerOfTwo)
    (hst : s.Stocked c size align) : (∃ ptr, (s.step a).1.ptr? = some ptr) ∧
      (s.step a).2.machine.provider = s.machine.provider := by
  have hr := hs.kept.represents
  have hpos := Chunk.total_pos size align
  have hle := (Regime.le_maxSize hpos hp.regime).trans c.maxSize_le
  rw [SizeClass.maxSize_big] at hle
  have hallowed : Heap.alignmentAllowed align = true :=
    Heap.alignmentAllowed_iff.mpr ⟨ha, by unfold Heap.maxAlignment; omega⟩
  obtain ⟨ptr, g', halloc⟩ : ∃ ptr g', g.alloc size align s.machine.provider =
      (.ok ptr, g', s.machine.provider) := by
    by_cases hstack : g.stack c (c.padded size align) = []
    · obtain ⟨i, hi⟩ := Regime.exists_bucket hpos hp.regime
      have hpadded : c.padded size align = c.bucketSize i := hi
      rcases hst with ⟨j, hj, hhead⟩ | ⟨hbases, hroom⟩
      · rw [hpadded, BucketTable.bucket_bucketSize (hr.units c)] at hj
        rw [hpadded] at hstack
        exact absurd (hr.head_none hstack) (Except.ok.inj hj ▸ hhead)
      · rw [hr.regions] at hbases hroom
        obtain ⟨base, bases, hb⟩ := List.exists_cons_of_ne_nil hbases
        simp only at hb hroom
        have hr : g.room (c.padded size align) = some (base + g.cursor) := by
          rw [Ideal.room, hb]
          exact if_pos hroom
        exact Ideal.alloc_room hallowed hp.regime hstack hr _
    · obtain ⟨ptr, g', halloc, -⟩ := Ideal.alloc_reused hallowed hp.regime hstack s.machine.provider
      exact ⟨ptr, g', halloc⟩
  obtain ⟨hstep, hptr, -⟩ := Ideal.step_request (g := g) (p := s.machine.provider) hp.asks
  have hf := hs.step_follows (ready_request hp.asks) hh
  rw [hf.answer, hf.provider, hstep, hptr, halloc]
  exact ⟨⟨ptr, rfl⟩, rfl⟩

end Mirrors

/-- Without refused calls the answers are the grants. -/
theorem answers_unrefused (notes : List Note) :
    (notes.filter fun n => !n.isRefused).filterMap Note.answer? =
      ((notes.filterMap Note.answer?).filterMap id).map some := by
  induction notes with
  | nil => rfl
  | cons n notes ih =>
    cases n with
    | reserved len base =>
      cases base with
      | none => exact ih
      | some base => exact congrArg (some base :: ·) ih
    | released base len accepted => exact ih
    | event e => exact ih

theorem Twins.step_unrefused (h : Twins s t g) {a : Action} (ha : s.Ready a)
    (hs : (s.step a).2.machine.Honoured) (ht : (t.step a).2.machine.Honoured)
    (hf : (s.step a).1.failure? = none)
    (hcalls : t.machine.provider.requests =
      s.machine.provider.requests.filter fun n => !n.isRefused)
    (hagree : Agree (fun base answer => some base = answer) (s.step a).2.machine.provider.grants
      (t.step a).2.machine.provider.answers) :
    ∃ b, Alike s t a g b ∧ ∀ n ∈ (g.react a b).2.2, !n.isRefused := by
  have hfs := h.left.step_follows ha hs
  have hft := h.right.step_follows (h.ready_iff.mpr ha) ht
  rw [hfs.answer] at hf
  obtain ⟨b, c, rfl, hb, hc⟩ : ∃ b c, b = c ∧ g.Hears a s.machine.provider b ∧
      g.Hears a t.machine.provider c := Ideal.exists_answers rfl rfl <| by
      intro len len' b c hp hq
      have hgranted := Ideal.unrefused_step hf hp (.reserved len b) (by simp)
      obtain ⟨base, rfl⟩ : ∃ base, b = some base := by
        cases b with
        | none => simp [Note.isRefused] at hgranted
        | some base => exact ⟨base, rfl⟩
      rw [← hfs.provider] at hp
      rw [← hft.provider] at hq
      have hanswers : t.machine.provider.answers = s.machine.provider.grants.map some := by
        rw [Provider.grants, Provider.answers_eq, Provider.answers_eq, hcalls, answers_unrefused]
      have hgrants : (s.step a).2.machine.provider.grants =
          s.machine.provider.grants ++ [base] := by
        rw [Provider.grants, Provider.answers_asked hp, List.filterMap_append]
        rfl
      rw [hgrants, Provider.answers_asked hq] at hagree
      exact hagree.last (by rw [hanswers, List.length_map])
  exact ⟨b, h.step ha hs ht hb hc, Ideal.unrefused_step hf hb.requests⟩

omit [Platform π] in
theorem grants_grow {w w' : Machine π} (h : w.Grew w') :
    w.provider.grants <+: w'.provider.grants :=
  h.answers.filterMap _

theorem served_failed {a : Action} {failure : Failure} (hf : (s.step a).1.failure? = some failure)
    (acts : List Action) : served (a :: acts) s = served acts (s.step a).2 := by
  simp [served, hf]

theorem served_ok {a : Action} (hf : (s.step a).1.failure? = none) (acts : List Action) :
    served (a :: acts) s = a :: served acts (s.step a).2 := by
  simp [served, hf]

namespace Condensed

variable {a : Action} {acts : List Action}

/-- `t` stands still while `s` fails. -/
theorem skip {failure : Failure} (hf : (s.step a).1.failure? = some failure)
    (h : Condensed acts (s.step a).2 t) : Condensed (a :: acts) s t := by
  constructor
  · rw [served_failed hf]
    exact h.valid
  · rw [served_failed hf, h.trace, World.trace, List.filter_cons_of_neg (by simp [hf])]
  · rw [served_failed hf]
    exact h.loans
  · rw [served_failed hf]
    exact h.requests

theorem serve {b : Option ℕ} (hf : (s.step a).1.failure? = none) (ha : Twins.Alike s t a g b)
    (h : Condensed acts (s.step a).2 (t.step a).2) : Condensed (a :: acts) s t := by
  constructor
  · rw [served_ok hf]
    exact ⟨ha.ready, h.valid⟩
  · rw [served_ok hf, World.trace, World.trace, List.filter_cons_of_pos (by simp [hf]), h.trace,
      ha.answer, ha.stats]
  · rw [served_ok hf]
    exact h.loans
  · rw [served_ok hf]
    exact h.requests

end Condensed

/-- A run without its failures, on a platform that makes the same grants. -/
theorem Twins.condensed {acts : List Action} (h : Twins s t g) (hv : Valid acts s)
    (hs : (after acts s).machine.Honoured) (ht : (after (served acts s) t).machine.Honoured)
    (hcalls : t.machine.provider.requests =
      s.machine.provider.requests.filter fun n => !n.isRefused)
    (hagree : Agree (fun base answer => some base = answer) (after acts s).machine.provider.grants
      (after (served acts s) t).machine.provider.answers) : Condensed acts s t := by
  induction acts generalizing s t g with
  | nil => exact ⟨trivial, rfl, h.loans, hcalls⟩
  | cons a acts ih =>
    have hstep := honoured_step hs
    cases hfail : (s.step a).1.failure? with
    | some failure =>
      obtain ⟨why, -, hsame, hmirrors⟩ := h.left.untouched hstep hfail
      rw [served_failed hfail] at ht hagree
      rw [← hsame.requests] at hcalls
      exact .skip hfail (ih ⟨hmirrors, h.right, h.loans.trans hsame.loans.symm⟩ hv.2 hs ht hcalls
        hagree)
    | none =>
      rw [served_ok hfail] at ht hagree
      have hagree' := hagree.shorten (grants_grow (grew_after acts (s.step a).2))
        (grew_after (served acts (s.step a).2) (t.step a).2).answers
      obtain ⟨b, halike, hunrefused⟩ := h.step_unrefused hv.1 hstep (honoured_step ht) hfail hcalls
        hagree'
      have hcalls' : (t.step a).2.machine.provider.requests =
          (s.step a).2.machine.provider.requests.filter fun n => !n.isRefused := by
        rw [halike.requests, halike.requests', hcalls, List.filter_append,
          List.filter_eq_self.mpr hunrefused]
      exact .serve hfail halike (ih halike.twins hv.2 hs ht hcalls' hagree)

theorem failures_leave_no_trace {h : Heap} (hf : h.Fresh) (w : Machine π) {acts : List Action}
    (hv : Valid acts (start h w)) (hh : (after acts (start h w)).machine.Honoured) :
    (∀ a, ((after acts (start h w)).step a).2.machine.Honoured →
      Robust (after acts (start h w)) a) ∧
    ∀ {ρ : Type} [Platform ρ] (v : Machine ρ),
      (after (served acts (start h w)) (start h v)).machine.Honoured →
      Agree (fun base answer => some base = answer)
        (after acts (start h w)).machine.provider.grants
        (after (served acts (start h w)) (start h v)).machine.provider.answers →
      Condensed acts (start h w) (start h v) := by
  constructor
  · intro a ha
    have hs := ((hf.mirrors w).after_mirrors hv hh).1
    constructor
    · intro failure hfail
      obtain ⟨why, hwhy, hsame, -⟩ := hs.untouched ha hfail
      exact ⟨why, hwhy, hsame⟩
    · intro size align c hp halign hst
      exact hs.stocked ha hp halign hst
  · intro ρ _ v hv' hagree
    have htwins : Twins (start h w) (start h v) h.ideal := ⟨hf.mirrors w, hf.mirrors v, rfl⟩
    exact htwins.condensed hv hh hv' rfl hagree

/-- The arena refuses the first and the third reservation and all long ones. -/
def strained : World (Arena × Tenant) :=
  start (Heap.empty 7 defaultRegionSize) { memory := .zero, platform := ({},
    { terms := { refused := [0, 2], limit := some 0x400000 } }) }

/-- Requests that fail in every way, with others between them. -/
def setbacks : List Action :=
  [.alloc 16 8, .alloc 16 3, .alloc 16 8, .alloc 2000000 64, .alloc (2 ^ 64 - 1) 8,
    .alloc 2000000 64, .alloc (2 ^ 64 - 10) 1, .alloc 20 4, .free 0x100000000008]

theorem failures_leave_no_trace_setbacks :
    (trace setbacks strained).map (·.1.failure?.isNone) =
      [false, false, true, false, false, true, false, true, true] ∧
    Untouched (after setbacks strained) ((after setbacks strained).step (.alloc 0x400000 8)).2
      (.outOfMemory 0x400018) ∧
    ((after setbacks strained).step (.alloc 9 8)).1.ptr? = some 0x100000000008 ∧
    Condensed setbacks strained onArena := by
  have hfails : (trace setbacks strained).map (·.1.failure?.isNone) =
      [false, false, true, false, false, true, false, true, true] := by decide +kernel
  have hlent : ((after setbacks strained).step (.alloc 9 8)).1.ptr? = some 0x100000000008 := by
    decide +kernel
  have hv : Valid setbacks strained := by decide +kernel
  have hh : (after setbacks strained).machine.Honoured := by decide +kernel
  -- naming the facts about whole runs would evaluate these in the elaborator
  obtain ⟨hrobust, hcondensed⟩ := failures_leave_no_trace (.plain 7) _ hv ‹_›
  have hfailure : ((after setbacks strained).step (.alloc 0x400000 8)).1.failure? =
      some (.refused (.outOfMemory 0x400018)) := by decide +kernel
  have hrefused : ((after setbacks strained).step (.alloc 0x400000 8)).2.machine.Honoured := by
    decide +kernel
  obtain ⟨why, hwhy, huntouched⟩ := (hrobust _ ‹_›).untouched _ hfailure
  obtain rfl : Refusal.outOfMemory 0x400018 = why := Failure.refused.inj hwhy
  have hgrants : (after setbacks strained).machine.provider.grants.map some =
      (after (served setbacks strained) onArena).machine.provider.answers.map id := by
    decide +kernel
  have hserved : (after (served setbacks strained) onArena).machine.Honoured := by
    decide +kernel
  exact ⟨hfails, huntouched, hlent, hcondensed _ ‹_› (Agree.of_map hgrants)⟩

end World

end ChunkHeap
