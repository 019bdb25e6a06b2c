import Mathlib
import ChunkHeap.Heap.Layout
import ChunkHeap.Platform.Basic
import ChunkHeap.Proofs.Span

/-!
# What a platform promises

The journal tells which ranges are held at any time. A platform honours its
contract in a journal if every range that it granted was fit to be granted
when it was: not at address zero, aligned to eight bytes, inside the lower half
of the address space and disjoint from all that was held. It need not accept
any call, and a released range may be granted again whatever the platform
answered.
-/

set_option autoImplicit false

namespace ChunkHeap

/-- A range that may be granted while others are held. -/
structure Grantable (s : Span) (held : List Span) : Prop where
  pos : 0 < s.start
  aligned : 8 ∣ s.start
  below : s.stop ≤ layoutLimit
  apart : ∀ r ∈ held, s.Disjoint r

theorem grantable_iff {s : Span} {held : List Span} : Grantable s held ↔
    0 < s.start ∧ 8 ∣ s.start ∧ s.stop ≤ layoutLimit ∧ ∀ r ∈ held, s.Disjoint r :=
  ⟨fun h => ⟨h.pos, h.aligned, h.below, h.apart⟩, fun h => ⟨h.1, h.2.1, h.2.2.1, h.2.2.2⟩⟩

instance (s : Span) (held : List Span) : Decidable (Grantable s held) :=
  decidable_of_iff' _ grantable_iff

namespace Note

/-- The ranges held after a note, the newest first. -/
def settle (held : List Span) : Note → List Span
  | .reserved len (some base) => ⟨base, len⟩ :: held
  | .reserved _ none => held
  | .released base len _ => held.erase ⟨base, len⟩
  | .event _ => held

def Honest (held : List Span) : Note → Prop
  | .reserved len (some base) => Grantable ⟨base, len⟩ held
  | _ => True

def isCall : Note → Bool
  | .event _ => false
  | _ => true

@[simp] theorem isCall_event (e : Event) : (Note.event e).isCall = false := rfl

instance (held : List Span) : (n : Note) → Decidable (n.Honest held)
  | .reserved _ (some _) => inferInstanceAs (Decidable (Grantable _ _))
  | .reserved _ none => inferInstanceAs (Decidable True)
  | .released .. => inferInstanceAs (Decidable True)
  | .event _ => inferInstanceAs (Decidable True)

end Note

/-- The ranges held after the notes if some were held before. -/
def heldFrom : List Span → List Note → List Span
  | held, [] => held
  | held, n :: notes => heldFrom (n.settle held) notes

def HonouredFrom : List Span → List Note → Prop
  | _, [] => True
  | held, n :: notes => n.Honest held ∧ HonouredFrom (n.settle held) notes

instance decidableHonouredFrom : (held : List Span) → (notes : List Note) →
    Decidable (HonouredFrom held notes)
  | _, [] => inferInstanceAs (Decidable True)
  | held, n :: notes =>
      have := decidableHonouredFrom (n.settle held) notes
      inferInstanceAs (Decidable (_ ∧ _))

theorem heldFrom_append (held : List Span) (notes more : List Note) :
    heldFrom held (notes ++ more) = heldFrom (heldFrom held notes) more := by
  induction notes generalizing held with
  | nil => rfl
  | cons n notes ih => exact ih _

theorem honouredFrom_append (held : List Span) (notes more : List Note) :
    HonouredFrom held (notes ++ more) ↔
      HonouredFrom held notes ∧ HonouredFrom (heldFrom held notes) more := by
  induction notes generalizing held with
  | nil => simp [HonouredFrom, heldFrom]
  | cons n notes ih => simp [HonouredFrom, heldFrom, ih, and_assoc]

/-- A platform without memory, with the calls made to it. -/
structure Provider (π : Type) where
  platform : π
  /-- The oldest call first. -/
  calls : List Note := []

namespace Provider

variable {π : Type} [Platform π]

def reserve (p : Provider π) (len : ℕ) : Option ℕ × Provider π :=
  let (grant, platform) := Platform.reserve p.platform len
  let base := grant.map Grant.base
  (base, ⟨platform, p.calls ++ [.reserved len base]⟩)

def release (p : Provider π) (base len : ℕ) : Provider π :=
  let receipt := Platform.release p.platform base len
  ⟨receipt.platform, p.calls ++ [.released base len receipt.accepted]⟩

end Provider

namespace Machine

variable {π : Type} (w : Machine π)

def held : List Span := heldFrom [] w.journal

def Honoured : Prop := HonouredFrom [] w.journal

instance : Decidable w.Honoured := decidableHonouredFrom _ _

def provider : Provider π := ⟨w.platform, w.journal.filter Note.isCall⟩

theorem held_log (notes : List Note) : (w.log notes).held = heldFrom w.held notes :=
  heldFrom_append _ _ _

theorem honoured_log (notes : List Note) :
    (w.log notes).Honoured ↔ w.Honoured ∧ HonouredFrom w.held notes :=
  honouredFrom_append _ _ _

theorem provider_log (notes : List Note) :
    (w.log notes).provider = ⟨w.platform, w.provider.calls ++ notes.filter Note.isCall⟩ := by
  simp [provider, log]

@[simp] theorem held_report (e : Event) : (w.report e).held = w.held := held_log w _

@[simp] theorem honoured_report (e : Event) : (w.report e).Honoured ↔ w.Honoured := by
  simp [report, honoured_log, HonouredFrom, Note.Honest]

@[simp] theorem provider_report (e : Event) : (w.report e).provider = w.provider := by
  rw [report, provider_log]
  simp [provider]

@[simp] theorem memory_report (e : Event) : (w.report e).memory = w.memory := rfl

theorem held_events (es : List Event) (held : List Span) :
    heldFrom held (es.map .event) = held := by
  induction es with
  | nil => rfl
  | cons e es ih => exact ih

variable [Platform π]

/-- A reservation is refused, and then nothing but the platform and the journal
changes, or it is granted, and then besides only its own bytes do. -/
theorem reserve_cases (len : ℕ) :
    (∃ w', w.reserve len = (none, w') ∧ w.provider.reserve len = (none, w'.provider) ∧
      w'.memory = w.memory ∧ w'.held = w.held) ∨
    (∃ base contents w', w.reserve len = (some base, w') ∧
      w.provider.reserve len = (some base, w'.provider) ∧
      w'.memory = w.memory.overlay base len contents ∧ w'.held = ⟨base, len⟩ :: w.held ∧
      (w'.Honoured → Grantable ⟨base, len⟩ w.held)) := by
  rcases h : Platform.reserve w.platform len with ⟨_ | g, p⟩
  · refine Or.inl ⟨{ w with platform := p }.log [.reserved len none], ?_, ?_, rfl, held_log _ _⟩
    · simp only [reserve, h]
    · have hp : Platform.reserve w.provider.platform len = _ := h
      rw [Provider.reserve, hp, provider_log]
      rfl
  · refine Or.inr ⟨g.base, g.contents, { w with
      memory := w.memory.overlay g.base len g.contents
      platform := p }.log [.reserved len (some g.base)], ?_, ?_, rfl, held_log _ _, fun hh => ?_⟩
    · simp only [reserve, h]
    · have hp : Platform.reserve w.provider.platform len = _ := h
      rw [Provider.reserve, hp, provider_log]
      rfl
    · exact ((honoured_log _ _).mp hh).2.1

theorem provider_reserve {len : ℕ} {answer : Option ℕ} {w' : Machine π}
    (h : w.reserve len = (answer, w')) : w.provider.reserve len = (answer, w'.provider) := by
  rcases w.reserve_cases len with ⟨w'', hw, hp, -⟩ | ⟨base, contents, w'', hw, hp, -⟩
  · obtain ⟨rfl, rfl⟩ := Prod.mk.inj (hw.symm.trans h)
    exact hp
  · obtain ⟨rfl, rfl⟩ := Prod.mk.inj (hw.symm.trans h)
    exact hp

theorem memory_refused {len : ℕ} {w' : Machine π} (h : w.reserve len = (none, w')) :
    w'.memory = w.memory := by
  rcases w.reserve_cases len with ⟨w'', hw, -, hm, -⟩ | ⟨base, contents, w'', hw, -⟩
  · obtain ⟨-, rfl⟩ := Prod.mk.inj (hw.symm.trans h)
    exact hm
  · simp [h] at hw

/-- A grant writes to its own range only. -/
theorem memory_granted {len base : ℕ} {w' : Machine π} (h : w.reserve len = (some base, w')) :
    ∃ contents, w'.memory = w.memory.overlay base len contents := by
  rcases w.reserve_cases len with ⟨w'', hw, -⟩ | ⟨base', contents, w'', hw, -, hm, -⟩
  · simp [h] at hw
  · obtain ⟨hbase, rfl⟩ := Prod.mk.inj (hw.symm.trans h)
    obtain rfl := Option.some.inj hbase
    exact ⟨contents, hm⟩

theorem provider_release (base len : ℕ) :
    (w.release base len).provider = w.provider.release base len := by
  have he : ∀ es : List Event, (es.map Note.event).filter Note.isCall = [] := by
    intro es
    simp
  rw [release, provider_log, List.filter_cons_of_pos rfl, he]
  rfl

theorem held_release (base len : ℕ) :
    (w.release base len).held = w.held.erase ⟨base, len⟩ := by
  rw [release, held_log]
  exact held_events _ _

end Machine

end ChunkHeap
