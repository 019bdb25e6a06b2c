import Mathlib
import ChunkHeap.Proofs.Contract

/-!
# What is owed to a platform

The calls made to a platform are read as a ledger. Some of the ranges granted
are regions, which are kept, and the others are reservations, each given back
as it was granted. So nothing is given back that is not held, and what is held
is what is on the ledger.
-/

set_option autoImplicit false

namespace ChunkHeap

namespace Note

def granted? : Note → Option Span
  | .reserved len (some base) => some ⟨base, len⟩
  | _ => none

def released? : Note → Option Span
  | .released base len _ => some ⟨base, len⟩
  | _ => none

/-- What is released is held. -/
def Due (held : List Span) : Note → Prop
  | .released base len _ => ⟨base, len⟩ ∈ held
  | _ => True

theorem settle_released {n : Note} {r : Span} (h : n.released? = some r) (held : List Span) :
    n.settle held = held.erase r ∧ (r ∈ held → n.Due held) := by
  cases n with
  | reserved len base => simp [released?] at h
  | released base len accepted =>
    obtain rfl := Option.some.inj h
    exact ⟨rfl, id⟩
  | event e => simp [released?] at h

end Note

/-- Every range released is held at that time. -/
def DueFrom : List Span → List Note → Prop
  | _, [] => True
  | held, n :: notes => n.Due held ∧ DueFrom (n.settle held) notes

theorem dueFrom_append (held : List Span) (notes more : List Note) :
    DueFrom held (notes ++ more) ↔ DueFrom held notes ∧ DueFrom (heldFrom held notes) more := by
  induction notes generalizing held with
  | nil => simp [DueFrom, heldFrom]
  | cons n notes ih => simp [DueFrom, heldFrom, ih, and_assoc]

theorem heldFrom_calls (held : List Span) (notes : List Note) :
    heldFrom held (notes.filter Note.isCall) = heldFrom held notes := by
  induction notes generalizing held with
  | nil => rfl
  | cons n notes ih =>
    cases n with
    | reserved len base => exact ih _
    | released base len accepted => exact ih _
    | event e => exact ih held

theorem honouredFrom_calls (held : List Span) (notes : List Note) :
    HonouredFrom held (notes.filter Note.isCall) ↔ HonouredFrom held notes := by
  induction notes generalizing held with
  | nil => exact Iff.rfl
  | cons n notes ih =>
    cases n with
    | reserved len base => exact and_congr Iff.rfl (ih _)
    | released base len accepted => exact and_congr Iff.rfl (ih _)
    | event e => exact (ih held).trans (true_and _).to_iff.symm

/-- If only what is held is released, the grants less the releases are what is
held in the end. -/
theorem balance_of_due {held : List Span} {notes : List Note} (h : DueFrom held notes) :
    held.length + (notes.filterMap Note.granted?).length =
      (heldFrom held notes).length + (notes.filterMap Note.released?).length := by
  induction notes generalizing held with
  | nil => rfl
  | cons n notes ih =>
    have hrest := ih h.2
    cases n with
    | reserved len base =>
      cases base with
      | none => exact hrest
      | some base =>
        simp only [Note.settle, Note.granted?, Note.released?, heldFrom, List.length_cons,
          List.filterMap_cons] at hrest ⊢
        omega
    | released base len accepted =>
      have hlen := List.length_erase_of_mem h.1
      have hpos := List.length_pos_of_mem h.1
      simp only [Note.settle, Note.granted?, Note.released?, heldFrom, List.length_cons,
        List.filterMap_cons] at hrest hlen hpos ⊢
      omega
    | event e => exact hrest

/-- Ranges given back one after the other are no longer held, and all others
still are. -/
theorem heldFrom_releases {held spans rest : List Span} {notes : List Note}
    (hn : notes.map Note.released? = spans.map some) (hp : held.Perm (spans ++ rest)) :
    (heldFrom held notes).Perm rest ∧ DueFrom held notes := by
  induction spans generalizing held notes with
  | nil =>
    obtain rfl : notes = [] := by simpa using hn
    exact ⟨hp, trivial⟩
  | cons r spans ih =>
    cases notes with
    | nil => simp at hn
    | cons n notes =>
      obtain ⟨hr, hrest⟩ := List.cons.inj hn
      obtain ⟨hsettle, hdue⟩ := Note.settle_released hr held
      have herase := hp.erase r
      rw [List.cons_append, List.erase_cons_head, ← hsettle] at herase
      obtain ⟨hheld, htail⟩ := ih hrest herase
      exact ⟨hheld, hdue (hp.mem_iff.mpr List.mem_cons_self), htail⟩

theorem Grantable.not_mem {s : Span} {held : List Span} (h : Grantable s held) (hs : 0 < s.len) :
    s ∉ held := by
  intro hm
  have hd := h.apart s hm
  unfold Span.Disjoint Span.stop at hd
  omega

/-- The calls that led to regions of size `R`, the newest first, and to
reservations. -/
inductive Ledger (R : ℕ) : List ℕ → List Span → List Note → Prop
  | none : Ledger R [] [] []
  | refused {bases : List ℕ} {reservations : List Span} {calls : List Note} (len : ℕ)
      (rest : Ledger R bases reservations calls) :
      Ledger R bases reservations (calls ++ [.reserved len none])
  | region {bases : List ℕ} {reservations : List Span} {calls : List Note} {base : ℕ}
      (rest : Ledger R bases reservations calls)
      (fresh : ⟨base, R⟩ ∉ bases.map (Span.mk · R) ++ reservations) :
      Ledger R (base :: bases) reservations (calls ++ [.reserved R (some base)])
  | reservation {bases : List ℕ} {reservations : List Span} {calls : List Note} {base len : ℕ}
      (rest : Ledger R bases reservations calls)
      (fresh : ⟨base, len⟩ ∉ bases.map (Span.mk · R) ++ reservations) :
      Ledger R bases (⟨base, len⟩ :: reservations) (calls ++ [.reserved len (some base)])
  | release {bases : List ℕ} {reservations reservations' : List Span} {calls : List Note}
      {base len : ℕ} (accepted : Bool) (rest : Ledger R bases reservations calls)
      (given : reservations.Perm (⟨base, len⟩ :: reservations')) :
      Ledger R bases reservations' (calls ++ [.released base len accepted])

namespace Ledger

variable {R : ℕ} {bases : List ℕ} {reservations : List Span} {calls : List Note}

theorem held_perm (h : Ledger R bases reservations calls) :
    (heldFrom [] calls).Perm (bases.map (Span.mk · R) ++ reservations) := by
  induction h with
  | none => exact List.Perm.refl _
  | refused len rest ih =>
    rw [heldFrom_append]
    exact ih
  | region rest fresh ih =>
    rw [heldFrom_append]
    exact ih.cons _
  | reservation rest fresh ih =>
    rw [heldFrom_append]
    exact (ih.cons _).trans List.perm_middle.symm
  | @release bases reservations reservations' calls base len accepted rest given ih =>
    rw [heldFrom_append]
    have herase := (ih.trans ((given.append_left _).trans List.perm_middle)).erase ⟨base, len⟩
    rwa [List.erase_cons_head] at herase

theorem due (h : Ledger R bases reservations calls) : DueFrom [] calls := by
  induction h with
  | none => trivial
  | refused len rest ih => exact (dueFrom_append _ _ _).mpr ⟨ih, trivial, trivial⟩
  | region rest fresh ih => exact (dueFrom_append _ _ _).mpr ⟨ih, trivial, trivial⟩
  | reservation rest fresh ih => exact (dueFrom_append _ _ _).mpr ⟨ih, trivial, trivial⟩
  | release accepted rest given ih =>
    have hmem := given.mem_iff.mpr List.mem_cons_self
    have hheld := rest.held_perm.mem_iff.mpr (List.mem_append_right _ hmem)
    exact (dueFrom_append _ _ _).mpr ⟨ih, hheld, trivial⟩

theorem nodup (h : Ledger R bases reservations calls) :
    (bases.map (Span.mk · R) ++ reservations).Nodup := by
  induction h with
  | none => exact List.nodup_nil
  | refused len rest ih => exact ih
  | region rest fresh ih => exact List.nodup_cons.mpr ⟨fresh, ih⟩
  | reservation rest fresh ih => exact List.nodup_middle.mpr (List.nodup_cons.mpr ⟨fresh, ih⟩)
  | @release bases reservations reservations' calls base len accepted rest given ih =>
    have hperm := (given.append_left (bases.map (Span.mk · R))).trans List.perm_middle
    exact (List.nodup_cons.mp (hperm.nodup_iff.mp ih)).2

/-- A range that may be granted is not on the ledger. -/
theorem fresh (h : Ledger R bases reservations calls) {base len : ℕ} (hlen : 0 < len)
    (hh : HonouredFrom [] (calls ++ [.reserved len (some base)])) :
    ⟨base, len⟩ ∉ bases.map (Span.mk · R) ++ reservations := by
  have hg : Grantable ⟨base, len⟩ (heldFrom [] calls) := ((honouredFrom_append _ _ _).mp hh).2.1
  rw [← h.held_perm.mem_iff]
  exact hg.not_mem hlen

/-- The regions were acquired in this order. -/
theorem order (h : Ledger R bases reservations calls) :
    (bases.reverse.map (Span.mk · R)).Sublist (calls.filterMap Note.granted?) := by
  induction h with
  | none => exact List.Sublist.refl _
  | refused len rest ih =>
    rw [List.filterMap_append]
    exact ih.trans (List.sublist_append_left _ _)
  | region rest fresh ih =>
    rw [List.filterMap_append, List.reverse_cons, List.map_append]
    exact ih.append (List.Sublist.refl _)
  | reservation rest fresh ih =>
    rw [List.filterMap_append]
    exact ih.trans (List.sublist_append_left _ _)
  | release accepted rest given ih =>
    rw [List.filterMap_append]
    exact ih.trans (List.sublist_append_left _ _)

/-- No region was given back since it was granted. -/
theorem kept (h : Ledger R bases reservations calls) : ∀ b ∈ bases, ∃ before since,
    calls = before ++ .reserved R (some b) :: since ∧
      ⟨b, R⟩ ∉ since.filterMap Note.released? := by
  -- a later call keeps this as long as it does not release the region itself
  have later : ∀ {calls : List Note} {b : ℕ} (n : Note), n.released? ≠ some ⟨b, R⟩ →
      (∃ before since, calls = before ++ .reserved R (some b) :: since ∧
        ⟨b, R⟩ ∉ since.filterMap Note.released?) →
      ∃ before since, calls ++ [n] = before ++ .reserved R (some b) :: since ∧
        ⟨b, R⟩ ∉ since.filterMap Note.released? := by
    rintro calls b n hn ⟨before, since, rfl, hs⟩
    refine ⟨before, since ++ [n], by simp, ?_⟩
    rw [List.filterMap_append, List.mem_append, not_or]
    exact ⟨hs, by simpa using hn⟩
  induction h with
  | none => simp
  | refused len rest ih => exact fun b hb => later _ (by simp [Note.released?]) (ih b hb)
  | @region bases reservations calls base rest fresh ih =>
    intro b hb
    rcases List.mem_cons.mp hb with rfl | hb
    · exact ⟨calls, [], rfl, by simp⟩
    · exact later _ (by simp [Note.released?]) (ih b hb)
  | reservation rest fresh ih => exact fun b hb => later _ (by simp [Note.released?]) (ih b hb)
  | @release bases reservations reservations' calls base len accepted rest given ih =>
    intro b hb
    apply later _ _ (ih b hb)
    intro heq
    have hregion : ⟨b, R⟩ ∈ bases.map (Span.mk · R) := List.mem_map_of_mem hb
    have hres : ⟨b, R⟩ ∈ reservations :=
      given.mem_iff.mpr (Option.some.inj heq ▸ List.mem_cons_self)
    exact (List.nodup_append.mp rest.nodup).2.2 _ hregion _ hres rfl

end Ledger

end ChunkHeap
