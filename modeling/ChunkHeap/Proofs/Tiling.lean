import Mathlib
import ChunkHeap.Proofs.Span

/-!
# Regions cut into chunks

Chunks are cut off a region one after the other until the next one does not
fit, and then a new region is entered. The chunks tile a part at the start of
each region, without gaps and without overlap.
-/

set_option autoImplicit false

namespace ChunkHeap

/-- How regions of size `R` have been cut: one after the other has been
entered, the newest first in `bases`, and in each chunks were cut off one after
the other. -/
inductive Tiled (R : ℕ) : List ℕ → ℕ → List Span → Prop
  | none : Tiled R [] 0 []
  | enter {bases : List ℕ} {cursor : ℕ} {cuts : List Span} (base : ℕ)
      (rest : Tiled R bases cursor cuts) : Tiled R (base :: bases) 0 cuts
  | cut {base : ℕ} {bases : List ℕ} {cursor n : ℕ} {cuts : List Span}
      (rest : Tiled R (base :: bases) cursor cuts) (pos : 0 < n) (aligned : 8 ∣ n)
      (fits : cursor + n ≤ R) : Tiled R (base :: bases) (cursor + n) (⟨base + cursor, n⟩ :: cuts)

namespace Tiled

variable {R cursor : ℕ} {bases : List ℕ} {cuts : List Span}

theorem cursor_le (h : Tiled R bases cursor cuts) : cursor ≤ R := by
  cases h with
  | none => exact Nat.zero_le _
  | enter => exact Nat.zero_le _
  | cut _ _ _ fits => exact fits

theorem cursor_eq_zero (h : Tiled R [] cursor cuts) : cursor = 0 := by
  cases h
  rfl

theorem eight_dvd_cursor (h : Tiled R bases cursor cuts) : 8 ∣ cursor := by
  induction h with
  | none => exact Nat.dvd_zero 8
  | enter => exact Nat.dvd_zero 8
  | cut _ _ aligned _ ih => exact Nat.dvd_add ih aligned

theorem len_pos (h : Tiled R bases cursor cuts) : ∀ t ∈ cuts, 0 < t.len := by
  induction h with
  | none => simp
  | enter _ _ ih => exact ih
  | cut _ pos _ _ ih => exact List.forall_mem_cons.mpr ⟨pos, ih⟩

end Tiled

/-- The parts of the regions that were cut, a prefix of each that ends at the
cursor in the current one. Together the chunks cover exactly these parts. -/
structure Parts (R : ℕ) (bases : List ℕ) (cursor : ℕ) (cuts parts : List Span) : Prop where
  starts : parts.map Span.start = bases
  len_le : ∀ p ∈ parts, p.len ≤ R
  current : parts.head?.map Span.len = bases.head?.map fun _ => cursor
  inside : ∀ t ∈ cuts, ∃ p ∈ parts, t.Within p
  covered : ∀ p ∈ parts, ∀ x, p.Covers x → ∃ t ∈ cuts, t.Covers x

namespace Parts

variable {R cursor : ℕ} {bases : List ℕ} {cuts parts : List Span}

theorem none (R : ℕ) : Parts R [] 0 [] [] := ⟨rfl, by simp, rfl, by simp, by simp⟩

/-- The part of the current region comes first. -/
theorem eq_cons {base : ℕ} (h : Parts R (base :: bases) cursor cuts parts) :
    ∃ rest, parts = ⟨base, cursor⟩ :: rest := by
  have hs := h.starts
  have hc := h.current
  cases parts with
  | nil => simp at hs
  | cons p rest =>
    obtain ⟨rfl, -⟩ : p.start = base ∧ rest.map Span.start = bases := by simpa using hs
    obtain rfl : p.len = cursor := by simpa using hc
    exact ⟨rest, rfl⟩

theorem enter (h : Parts R bases cursor cuts parts) (base : ℕ) :
    Parts R (base :: bases) 0 cuts (⟨base, 0⟩ :: parts) where
  starts := by simp [h.starts]
  len_le := List.forall_mem_cons.mpr ⟨Nat.zero_le _, h.len_le⟩
  current := rfl
  inside := by
    intro t ht
    obtain ⟨p, hp, htp⟩ := h.inside t ht
    exact ⟨p, List.mem_cons_of_mem _ hp, htp⟩
  covered := by
    intro p hp x hx
    rcases List.mem_cons.mp hp with rfl | hp
    · exact absurd hx.2 (Nat.not_lt.mpr hx.1)
    · exact h.covered p hp x hx

theorem cut {base n : ℕ} (h : Parts R (base :: bases) cursor cuts (⟨base, cursor⟩ :: parts))
    (fits : cursor + n ≤ R) :
    Parts R (base :: bases) (cursor + n) (⟨base + cursor, n⟩ :: cuts)
      (⟨base, cursor + n⟩ :: parts) where
  starts := by simpa using h.starts
  len_le := List.forall_mem_cons.mpr ⟨fits, (List.forall_mem_cons.mp h.len_le).2⟩
  current := rfl
  inside := by
    refine List.forall_mem_cons.mpr ⟨⟨_, List.mem_cons_self, ?_⟩, fun t ht => ?_⟩
    · exact ⟨Nat.le_add_right _ _, by simp [Span.stop, Nat.add_assoc]⟩
    · obtain ⟨p, hp, htp⟩ := h.inside t ht
      rcases List.mem_cons.mp hp with rfl | hp
      · exact ⟨_, List.mem_cons_self, htp.trans ⟨Nat.le_refl _, by simp [Span.stop]⟩⟩
      · exact ⟨p, List.mem_cons_of_mem _ hp, htp⟩
  covered := by
    intro p hp x hx
    have old : ∀ p ∈ (⟨base, cursor⟩ :: parts : List Span), p.Covers x →
        ∃ t ∈ (⟨base + cursor, n⟩ :: cuts : List Span), t.Covers x := fun p hp hx => by
      obtain ⟨t, ht, htx⟩ := h.covered p hp x hx
      exact ⟨t, List.mem_cons_of_mem _ ht, htx⟩
    rcases List.mem_cons.mp hp with rfl | hp
    · by_cases hlow : x < base + cursor
      · exact old _ List.mem_cons_self ⟨hx.1, hlow⟩
      · refine ⟨_, List.mem_cons_self, Nat.not_lt.mp hlow, ?_⟩
        simpa [Span.stop, Nat.add_assoc] using hx.2
    · exact old p (List.mem_cons_of_mem _ hp) hx

end Parts

namespace Tiled

variable {R cursor : ℕ} {bases : List ℕ} {cuts : List Span}

theorem exists_parts (h : Tiled R bases cursor cuts) :
    ∃ parts, Parts R bases cursor cuts parts := by
  induction h with
  | none => exact ⟨[], .none R⟩
  | enter base rest ih =>
    obtain ⟨parts, h⟩ := ih
    exact ⟨_, h.enter base⟩
  | @cut base bases cursor n cuts rest pos aligned fits ih =>
    obtain ⟨parts, h⟩ := ih
    obtain ⟨parts, rfl⟩ := h.eq_cons
    exact ⟨_, h.cut fits⟩

/-- A chunk lies in front of the cursor or in a region that was left. -/
theorem within (h : Tiled R bases cursor cuts) : ∀ t ∈ cuts,
    (∃ b ∈ bases.head?, t.Within ⟨b, cursor⟩) ∨ ∃ b ∈ bases.tail, t.Within ⟨b, R⟩ := by
  obtain ⟨parts, hp⟩ := h.exists_parts
  obtain rfl := hp.starts
  intro t ht
  obtain ⟨p, hmem, htp⟩ := hp.inside t ht
  cases parts with
  | nil => simp at hmem
  | cons q parts =>
    obtain rfl : q.len = cursor := by simpa using hp.current
    rcases List.mem_cons.mp hmem with rfl | hmem
    · exact Or.inl ⟨p.start, by simp, htp⟩
    · refine Or.inr ⟨p.start, List.mem_map_of_mem hmem, htp.trans ⟨Nat.le_refl _, ?_⟩⟩
      exact Nat.add_le_add_left (hp.len_le p (List.mem_cons_of_mem _ hmem)) _

theorem within_region (h : Tiled R bases cursor cuts) {t : Span} (ht : t ∈ cuts) :
    ∃ b ∈ bases, t.Within ⟨b, R⟩ := by
  rcases h.within t ht with ⟨b, hb, hw⟩ | ⟨b, hb, hw⟩
  · exact ⟨b, List.mem_of_mem_head? hb, hw.trans
      ⟨Nat.le_refl _, Nat.add_le_add_left h.cursor_le _⟩⟩
  · exact ⟨b, List.mem_of_mem_tail hb, hw⟩

/-- Chunks of disjoint regions are disjoint, and so are those of one region. -/
theorem apart (h : Tiled R bases cursor cuts)
    (hr : (bases.map (Span.mk · R)).Pairwise Span.Disjoint) : cuts.Pairwise Span.Disjoint := by
  induction h with
  | none => exact List.Pairwise.nil
  | enter _ _ ih => exact ih (List.pairwise_cons.mp hr).2
  | @cut base bases cursor n cuts rest pos aligned fits ih =>
    apply List.pairwise_cons.mpr ⟨_, ih hr⟩
    intro t ht
    have hin : Span.Within ⟨base + cursor, n⟩ ⟨base, R⟩ :=
      ⟨Nat.le_add_right _ _, by simp only [Span.stop]; omega⟩
    rcases rest.within t ht with ⟨b, hb, hw⟩ | ⟨b, hb, hw⟩
    · obtain rfl : base = b := by simpa using hb
      exact Or.inr hw.2
    · have hd := (List.pairwise_cons.mp hr).1 ⟨b, R⟩ (List.mem_map_of_mem hb)
      exact hd.mono hin hw

theorem eight_dvd_start (h : Tiled R bases cursor cuts) (hb : ∀ b ∈ bases, 8 ∣ b) :
    ∀ t ∈ cuts, 8 ∣ t.start := by
  induction h with
  | none => simp
  | enter _ _ ih => exact ih fun b h => hb b (by simp [h])
  | cut rest pos aligned fits ih =>
    refine List.forall_mem_cons.mpr ⟨?_, ih hb⟩
    exact Nat.dvd_add (hb _ (by simp)) rest.eight_dvd_cursor

end Tiled

end ChunkHeap
