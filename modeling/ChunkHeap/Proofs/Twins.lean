import Mathlib
import ChunkHeap.Proofs.Dealings
import ChunkHeap.Proofs.Moves

/-!
# Worlds of the same ideal heap

Two worlds are twins if they mirror one ideal heap and have the same loans.
Their platforms, their memories and what they have reported may differ. As long
as the platforms give the same answers, twins answer alike and stay twins.
-/

set_option autoImplicit false

namespace ChunkHeap.World

variable {π ρ : Type} {s : World π} {t : World ρ} {g g' : Ideal} {a : Action}

structure Twins (s : World π) (t : World ρ) (g : Ideal) : Prop where
  left : s.Mirrors g
  right : t.Mirrors g
  loans : t.loans = s.loans

theorem Twins.ready_iff (h : Twins s t g) : t.Ready a ↔ s.Ready a := by
  cases a <;> simp only [Ready, h.loans]

theorem without_eq (h : t.loans = s.loans) (ptr : ℕ) : t.without ptr = s.without ptr := by
  rw [without, without, h]

variable [Platform π] [Platform ρ]

/-- A step told by what the ideal heap does on a known answer. -/
structure Goes (s : World π) (a : Action) (x : Answer × Ideal × List Note) : Prop where
  answer : (s.step a).1 = x.1
  mirrors : (s.step a).2.Mirrors x.2.1
  requests : (s.step a).2.machine.provider.requests = s.machine.provider.requests ++ x.2.2

theorem Mirrors.goes (hs : s.Mirrors g) (ha : s.Ready a) (hh : (s.step a).2.machine.Honoured)
    {b : Option ℕ} (hb : g.Hears a s.machine.provider b) : s.Goes a (g.react a b) := by
  have hf := hs.step_follows ha hh
  constructor
  · rw [hf.answer, hb.answer]
  · rw [← hb.ideal]
    exact hf.mirrors
  · rw [hf.provider, hb.requests]

theorem loans_refused {size align : ℕ} (ha : a.asks? = some (size, align))
    (hp : (s.step a).1.ptr? = none) : (s.step a).2.loans = s.loans := by
  rcases Action.eq_of_asks ha with rfl | ⟨layout, zeroed, rfl, rfl, rfl⟩
  · simp only [step] at hp ⊢
    split at hp
    · rfl
    · simp [Answer.ptr?] at hp
  · simp only [step] at hp ⊢
    split at hp
    · rfl
    · simp [Answer.ptr?, Answer.block?] at hp

/-- The ideal heap tells which chunk was lent. -/
theorem lend_eq {size align ptr : ℕ} {block : Option Block} (h : t.loans = s.loans)
    (hs : (s.step a).2.Mirrors g') (ht : (t.step a).2.Mirrors g')
    (hl : (s.step a).2.loans = s.lend ptr size align block)
    (hl' : (t.step a).2.loans = t.lend ptr size align block) :
    (t.step a).2.loans = (s.step a).2.loans := by
  have hlive := ht.live.symm.trans hs.live
  rw [hl, hl', lend, lend, List.map_cons, List.map_cons] at hlive
  have hplace := (Prod.mk.inj (List.cons.inj hlive).1).2
  have hchunk : t.chunkFor size align = s.chunkFor size align := by
    have hs' : Chunk.oversizedPrefix ≤ s.chunkFor size align :=
      (hs.loans ⟨ptr, size, align, _, block⟩ (by rw [hl]; exact List.mem_cons_self)).chunk
    have ht' : Chunk.oversizedPrefix ≤ t.chunkFor size align :=
      (ht.loans ⟨ptr, size, align, _, block⟩ (by rw [hl']; exact List.mem_cons_self)).chunk
    have heq := congrArg Place.chunk hplace
    rwa [Loan.place, Loan.place, Place.chunk_of _ hs', Place.chunk_of _ ht'] at heq
  rw [hl, hl', lend, lend, hchunk, h]

theorem loans_eq (h : t.loans = s.loans) (hs : (s.step a).2.Mirrors g')
    (ht : (t.step a).2.Mirrors g') (hanswer : (t.step a).1 = (s.step a).1) :
    (t.step a).2.loans = (s.step a).2.loans := by
  have hrequest : ∀ size align, a.asks? = some (size, align) →
      (t.step a).2.loans = (s.step a).2.loans := by
    intro size align ha
    cases hp : (s.step a).1.ptr? with
    | none => rw [loans_refused ha hp, loans_refused ha (hanswer ▸ hp), h]
    | some ptr =>
      have hl := loans_step ha hp
      have hl' := loans_step (s := t) ha (hanswer ▸ hp)
      rw [hanswer] at hl'
      exact lend_eq h hs ht hl hl'
  cases a with
  | alloc size align => exact hrequest _ _ rfl
  | allocate layout zeroed => exact hrequest _ _ rfl
  | free ptr => exact without_eq h ptr
  | deallocate block => exact without_eq h block.ptr
  | paddedSize block => exact h
  | write addr bytes => exact h

/-- What a step of one world and of its twin have in common. -/
structure Twins.Alike (s : World π) (t : World ρ) (a : Action) (g : Ideal) (b : Option ℕ) :
    Prop where
  ready : t.Ready a
  answer : (t.step a).1 = (s.step a).1
  stats : (t.step a).2.heap.stats = (s.step a).2.heap.stats
  twins : Twins (s.step a).2 (t.step a).2 (g.react a b).2.1
  requests : (s.step a).2.machine.provider.requests =
    s.machine.provider.requests ++ (g.react a b).2.2
  requests' : (t.step a).2.machine.provider.requests =
    t.machine.provider.requests ++ (g.react a b).2.2

/-- Twins that hear the same answer do the same. -/
theorem Twins.step {b : Option ℕ} (h : Twins s t g) (ha : s.Ready a)
    (hs : (s.step a).2.machine.Honoured) (ht : (t.step a).2.machine.Honoured)
    (hb : g.Hears a s.machine.provider b) (hb' : g.Hears a t.machine.provider b) :
    Alike s t a g b := by
  have ha' := h.ready_iff.mpr ha
  have hx := h.left.goes ha hs hb
  have hy := h.right.goes ha' ht hb'
  have hanswer : (t.step a).1 = (s.step a).1 := by rw [hx.answer, hy.answer]
  constructor
  · exact ha'
  · exact hanswer
  · rw [hx.mirrors.stats_eq, hy.mirrors.stats_eq]
  · exact ⟨hx.mirrors, hy.mirrors, loans_eq h.loans hx.mirrors hy.mirrors hanswer⟩
  · exact hx.requests
  · exact hy.requests

/-- Twins that have made the same calls do the same as long as the answers agree. -/
theorem Twins.step_of_agree (h : Twins s t g) (ha : s.Ready a)
    (hs : (s.step a).2.machine.Honoured) (ht : (t.step a).2.machine.Honoured)
    (hcalls : t.machine.provider.requests = s.machine.provider.requests)
    (hagree : Agree Eq (s.step a).2.machine.provider.answers
      (t.step a).2.machine.provider.answers) : ∃ b, Alike s t a g b := by
  have hf := h.left.step_follows ha hs
  have hf' := h.right.step_follows (h.ready_iff.mpr ha) ht
  obtain ⟨b, c, rfl, hb, hc⟩ : ∃ b c, b = c ∧ g.Hears a s.machine.provider b ∧
      g.Hears a t.machine.provider c := Ideal.exists_answers rfl rfl <| by
      intro len len' b c hp hq
      rw [← hf.provider] at hp
      rw [← hf'.provider] at hq
      rw [Provider.answers_asked hp, Provider.answers_asked hq] at hagree
      exact hagree.last (by rw [Provider.answers_eq, Provider.answers_eq, hcalls])
  exact ⟨b, h.step ha hs ht hb hc⟩

end ChunkHeap.World
