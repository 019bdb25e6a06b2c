import Mathlib
import ChunkHeap.Proofs.Simulation

/-!
# Calls by any users

Besides the actions of a valid run users may ask for the figures of a heap and
may hand in blocks of other heaps. The heap does not take such a block, so no
loan ends. Every call leaves the world as it was or is a step of a valid run.
-/

set_option autoImplicit false

namespace ChunkHeap

/-- The block that an action hands in. -/
def Action.block? : Action → Option Block
  | .deallocate block => some block
  | .paddedSize block => some block
  | _ => none

inductive Call where
  | action (a : Action)
  | stats

inductive Reply where
  | answer (a : Answer)
  | figures (f : Stats)

/-- The bytes that a user writes. -/
def Call.written : Call → List Span
  | .action (.write addr bytes) => [⟨addr, bytes.length⟩]
  | _ => []

namespace World

variable {π : Type} {s : World π} {g : Ideal}

def Foreign (s : World π) (a : Action) : Prop := ∃ b ∈ a.block?, b.owner ≠ s.heap.id

def Allowed (s : World π) : Call → Prop
  | .action a => s.Ready a ∨ s.Foreign a
  | .stats => True

instance (s : World π) (a : Action) : Decidable (s.Foreign a) :=
  inferInstanceAs (Decidable (∃ b ∈ a.block?, _))

instance (s : World π) : (c : Call) → Decidable (s.Allowed c)
  | .action _ => inferInstanceAs (Decidable (_ ∨ _))
  | .stats => inferInstanceAs (Decidable True)

variable [Platform π]

/-- A loan ends when the heap has taken the pointer or the block back. -/
def call (s : World π) : Call → Reply × World π
  | .action (.deallocate block) =>
      match s.heap.deallocate block s.machine with
      | (.error fault, heap, machine) =>
          (.answer (.returned (.error fault)), s.settle heap machine s.loans)
      | (.ok (), heap, machine) =>
          (.answer (.returned (.ok ())), s.settle heap machine (s.without block.ptr))
  | .action a => (.answer (s.step a).1, (s.step a).2)
  | .stats => (.figures s.heap.stats, s)

def calls : List Call → World π → World π
  | [], s => s
  | c :: cs, s => calls cs (s.call c).2

def AllAllowed : List Call → World π → Prop
  | [], _ => True
  | c :: cs, s => s.Allowed c ∧ AllAllowed cs (s.call c).2

instance decidableAllAllowed : (cs : List Call) → (s : World π) → Decidable (AllAllowed cs s)
  | [], _ => inferInstanceAs (Decidable True)
  | c :: cs, s =>
      have := decidableAllAllowed cs (s.call c).2
      inferInstanceAs (Decidable (_ ∧ _))

omit [Platform π] in
theorem settle_self (s : World π) : s.settle s.heap s.machine s.loans = s := by
  rw [settle, RegionSource.grown_self, List.nil_append]

theorem call_foreign {a : Action} (ha : s.Foreign a) : (s.call (.action a)).2 = s := by
  obtain ⟨b, hb, howner⟩ := ha
  cases a with
  | deallocate block =>
    obtain rfl : block = b := by simpa [Action.block?] using hb
    have hfault : s.heap.deallocate block s.machine =
        (.error (.foreignBlock block.ptr), s.heap, s.machine) := by
      rw [Heap.deallocate, Heap.checkOwner, if_neg howner]
    rw [call, hfault]
    exact s.settle_self
  | paddedSize block => rfl
  | alloc size align => simp [Action.block?] at hb
  | allocate layout zeroed => simp [Action.block?] at hb
  | free ptr => simp [Action.block?] at hb
  | write addr bytes => simp [Action.block?] at hb

namespace Mirrors

theorem call_ready (hs : s.Mirrors g) {a : Action} (ha : s.Ready a) :
    (s.call (.action a)).2 = (s.step a).2 := by
  cases a with
  | deallocate block =>
    have hanswer := (hs.deallocate_follows ha).answer
    simp only [step, Ideal.step] at hanswer
    rcases hx : s.heap.deallocate block s.machine with ⟨result, h', w'⟩
    rw [hx] at hanswer
    obtain rfl : result = .ok () := Answer.returned.inj hanswer
    simp only [call, step, hx]
  | _ => rfl

/-- A call leaves the world as it was or is a step. -/
theorem call_cases (hs : s.Mirrors g) {c : Call} (hc : s.Allowed c) :
    (s.call c).2 = s ∨ ∃ a, c = .action a ∧ s.Ready a ∧ (s.call c).2 = (s.step a).2 := by
  cases c with
  | stats => exact Or.inl rfl
  | action a =>
    rcases hc with ha | ha
    · exact Or.inr ⟨a, rfl, ha, hs.call_ready ha⟩
    · exact Or.inl (call_foreign ha)

theorem call_mirrors (hs : s.Mirrors g) {c : Call} (hc : s.Allowed c)
    (hh : (s.call c).2.machine.Honoured) : ∃ g', (s.call c).2.Mirrors g' := by
  rcases hs.call_cases hc with heq | ⟨a, -, ha, heq⟩
  · rw [heq]
    exact ⟨g, hs⟩
  · rw [heq] at hh ⊢
    exact ⟨_, (hs.step_follows ha hh).mirrors⟩

end Mirrors

theorem grew_call (s : World π) (c : Call) : s.machine.Grew (s.call c).2.machine := by
  cases c with
  | stats => exact Machine.Grew.refl _
  | action a =>
    cases a with
    | deallocate block =>
      have hd := s.heap.grew_deallocate block s.machine
      simp only [call]
      split
      · next h => rwa [h] at hd
      · next h => rwa [h] at hd
    | _ => exact s.grew_step _

theorem grew_calls (cs : List Call) (s : World π) : s.machine.Grew (calls cs s).machine := by
  induction cs generalizing s with
  | nil => exact Machine.Grew.refl _
  | cons c cs ih => exact (s.grew_call c).trans (ih _)

theorem Mirrors.calls_mirrors {cs : List Call} (hs : s.Mirrors g) (hv : AllAllowed cs s)
    (hh : (calls cs s).machine.Honoured) : ∃ g', (calls cs s).Mirrors g' := by
  induction cs generalizing s g with
  | nil => exact ⟨g, hs⟩
  | cons c cs ih =>
    obtain ⟨g', hs'⟩ := hs.call_mirrors hv.1 ((grew_calls cs _).honoured hh)
    exact ih hs' hv.2 hh

end World

end ChunkHeap
