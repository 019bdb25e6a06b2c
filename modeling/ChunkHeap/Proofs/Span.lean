import Mathlib
import ChunkHeap.Memory.Basic

/-!
# Spans of addresses

Ranges of bytes, when they are disjoint and when one lies inside another, and
memories that agree on a range.
-/

set_option autoImplicit false

namespace ChunkHeap

structure Span where
  start : ℕ
  len : ℕ
  deriving DecidableEq, Repr

namespace Span

def stop (s : Span) : ℕ := s.start + s.len

def Disjoint (s t : Span) : Prop := s.stop ≤ t.start ∨ t.stop ≤ s.start

def Within (s t : Span) : Prop := t.start ≤ s.start ∧ s.stop ≤ t.stop

def Covers (s : Span) (x : ℕ) : Prop := s.start ≤ x ∧ x < s.stop

instance (s t : Span) : Decidable (s.Disjoint t) := inferInstanceAs (Decidable (_ ∨ _))

instance (s t : Span) : Decidable (s.Within t) := inferInstanceAs (Decidable (_ ∧ _))

instance (s : Span) (x : ℕ) : Decidable (s.Covers x) := inferInstanceAs (Decidable (_ ∧ _))

variable {r s t u : Span}

theorem Disjoint.symm (h : s.Disjoint t) : t.Disjoint s := Or.symm h

theorem Disjoint.mono (h : s.Disjoint t) (hu : u.Within s) (hr : r.Within t) : u.Disjoint r := by
  unfold Disjoint Within at *
  omega

theorem Within.refl (s : Span) : s.Within s := ⟨Nat.le_refl _, Nat.le_refl _⟩

theorem front_within {n : ℕ} (h : n ≤ s.len) : Within ⟨s.start, n⟩ s :=
  ⟨Nat.le_refl _, Nat.add_le_add_left h _⟩

theorem Within.trans (h : r.Within s) (h' : s.Within t) : r.Within t :=
  ⟨h'.1.trans h.1, h.2.trans h'.2⟩

theorem pairwise_disjoint_perm {l l' : List Span} (h : l.Perm l') :
    l.Pairwise Disjoint ↔ l'.Pairwise Disjoint :=
  h.pairwise_iff fun h => h.symm

/-- Disjoint spans that are not empty start at different addresses. -/
theorem nodup_starts {l : List Span} (h : l.Pairwise Disjoint) (hl : ∀ s ∈ l, 0 < s.len) :
    (l.map start).Nodup := by
  rw [List.Nodup, List.pairwise_map]
  apply h.imp_of_mem
  intro s t hs ht hd heq
  have hslen := hl s hs
  have htlen := hl t ht
  unfold Disjoint stop at hd
  omega

/-- Disjoint spans that are not empty are no more than the addresses below their ends. -/
theorem length_le {l : List Span} {n : ℕ} (hd : l.Pairwise Disjoint) (hl : ∀ s ∈ l, 0 < s.len)
    (hn : ∀ s ∈ l, s.stop ≤ n) : l.length ≤ n := by
  have hsub : l.map start ⊆ List.range n := by
    intro x hx
    obtain ⟨s, hs, rfl⟩ := List.mem_map.mp hx
    have hlen := hl s hs
    have hstop := hn s hs
    simp only [stop] at hstop
    exact List.mem_range.mpr (by omega)
  have hle := (List.subperm_of_subset (nodup_starts hd hl) hsub).length_le
  rwa [List.length_map, List.length_range] at hle

end Span

namespace Memory

variable {m m' : Memory} {s t : Span}

def AgreesOn (m m' : Memory) (s : Span) : Prop := ∀ x, s.Covers x → m x = m' x

theorem AgreesOn.mono (h : m.AgreesOn m' t) (hs : s.Within t) : m.AgreesOn m' s :=
  fun x hx => h x ⟨hs.1.trans hx.1, hx.2.trans_le hs.2⟩

theorem AgreesOn.trans {m'' : Memory} (h : m.AgreesOn m' s) (h' : m'.AgreesOn m'' s) :
    m.AgreesOn m'' s :=
  fun x hx => (h x hx).trans (h' x hx)

theorem AgreesOn.load_eq {a width : ℕ} (h : m.AgreesOn m' s) (hs : Span.Within ⟨a, width⟩ s) :
    m.load a width = m'.load a width :=
  load_congr fun x h₁ h₂ => h x ⟨hs.1.trans h₁, lt_of_lt_of_le h₂ hs.2⟩

/-- The memories may differ inside the span only. -/
def AgreesOff (m m' : Memory) (s : Span) : Prop := ∀ x, ¬ s.Covers x → m x = m' x

theorem AgreesOff.on (h : m.AgreesOff m' s) (hd : t.Disjoint s) : m.AgreesOn m' t := by
  intro x hx
  apply h
  unfold Span.Disjoint Span.Covers at *
  omega

theorem agreesOff_overlay (m : Memory) (a n : ℕ) (f : ℕ → UInt8) :
    m.AgreesOff (m.overlay a n f) ⟨a, n⟩ := by
  intro x hx
  rw [overlay_outside]
  simp only [Span.Covers, Span.stop] at hx
  omega

theorem AgreesOff.mono (h : m.AgreesOff m' s) (hs : s.Within t) : m.AgreesOff m' t :=
  fun x hx => h x fun hc => hx ⟨hs.1.trans hc.1, hc.2.trans_le hs.2⟩

theorem agreesOff_store (m : Memory) {a width n : ℕ} (hs : Span.Within ⟨a, width⟩ s) :
    m.AgreesOff (m.store a width n) s :=
  (agreesOff_overlay m a width _).mono hs

/-- Writes to disjoint spans can be done in either order. -/
theorem overlay_comm (m : Memory) {a n b k : ℕ} (f f' : ℕ → UInt8)
    (hd : Span.Disjoint ⟨a, n⟩ ⟨b, k⟩) :
    (m.overlay a n f).overlay b k f' = (m.overlay b k f').overlay a n f := by
  funext x
  unfold Span.Disjoint Span.stop at hd
  simp only at hd
  by_cases hx : a ≤ x ∧ x < a + n
  · rw [overlay_inside _ f hx, overlay_outside _ f' (by omega), overlay_inside _ f hx]
  · rw [overlay_outside _ f (by omega)]
    by_cases hy : b ≤ x ∧ x < b + k
    · rw [overlay_inside _ f' hy, overlay_inside _ f' hy]
    · rw [overlay_outside _ f' (by omega), overlay_outside _ f' (by omega),
        overlay_outside _ f (by omega)]

/-- A write inside one span is not seen in a disjoint one. -/
theorem agreesOn_overlay (m : Memory) {a n : ℕ} (f : ℕ → UInt8) (ht : Span.Within ⟨a, n⟩ t)
    (hd : s.Disjoint t) : m.AgreesOn (m.overlay a n f) s := by
  intro x hx
  rw [overlay_outside]
  unfold Span.Within Span.Disjoint Span.Covers Span.stop at *
  simp only at ht
  omega

theorem agreesOn_store (m : Memory) {a width n : ℕ} (ht : Span.Within ⟨a, width⟩ t)
    (hd : s.Disjoint t) : m.AgreesOn (m.store a width n) s :=
  agreesOn_overlay m _ ht hd

end Memory

end ChunkHeap
