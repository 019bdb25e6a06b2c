import Mathlib
import ChunkHeap.Platform.AddressSpace
import ChunkHeap.Proofs.Contract
import ChunkHeap.Proofs.Rounding

/-!
# What a system promises

A system is known by the bytes that it has mapped. It maps pages that were not
mapped, as many as it is asked for, or refuses and does nothing. Pages that are
mapped it unmaps, and no others with them. Where it maps is its own choice.
-/

set_option autoImplicit false

namespace ChunkHeap

/-- The bytes of a span. -/
def Span.bytes (s : Span) : Set ℕ := {x | s.Covers x}

/-- Spans that are not empty are disjoint if no byte is in both. -/
theorem Span.disjoint_of_bytes {s t : Span} (hs : 0 < s.len) (ht : 0 < t.len)
    (h : ∀ x ∈ s.bytes, x ∉ t.bytes) : s.Disjoint t := by
  have hfirst : ¬ (s.Covers (max s.start t.start) ∧ t.Covers (max s.start t.start)) :=
    fun hc => h _ hc.1 hc.2
  unfold Covers Disjoint stop at *
  omega

theorem Span.Disjoint.not_mem_bytes {s t : Span} (h : s.Disjoint t) {x : ℕ} (hx : x ∈ s.bytes) :
    x ∉ t.bytes := by
  intro ht
  have hs : s.Covers x := hx
  have ht' : t.Covers x := ht
  unfold Covers at hs ht'
  unfold Disjoint at h
  omega

namespace Mapper

variable (σ : Type) [Mapper σ]

theorem pageSize_pos : 0 < pageSize σ := Nat.lt_of_lt_of_le (by decide) eight_le_pageSize

theorem eight_dvd_pageSize : 8 ∣ pageSize σ := by
  obtain ⟨k, hk⟩ : (pageSize σ).isPowerOfTwo := pageSize_pow
  have hle : 2 ^ 3 ≤ pageSize σ := eight_le_pageSize
  rw [hk] at hle ⊢
  exact Nat.pow_dvd_pow 2 ((Nat.pow_le_pow_iff_right (by decide)).mp hle)

end Mapper

/-- The law of systems, for the bytes that each state has mapped. Mappings are
whole pages in the lower half of the address space and none is empty. -/
structure Mapper.Lawful {σ : Type} [Mapper σ] (mapped : σ → Set ℕ) : Prop where
  granted : ∀ {s s' : σ} {len : ℕ} {g : Grant}, map s len = (some g, s') →
    0 < len ∧ 0 < g.base ∧ pageSize σ ∣ g.base ∧ g.base + len ≤ layoutLimit ∧
      (∀ x ∈ Span.bytes ⟨g.base, len⟩, x ∉ mapped s) ∧
      mapped s' = mapped s ∪ Span.bytes ⟨g.base, len⟩
  refused : ∀ {s s' : σ} {len : ℕ}, map s len = (none, s') → mapped s' = mapped s
  unmapped : ∀ {s : σ} {addr len : ℕ}, 0 < len → pageSize σ ∣ addr → pageSize σ ∣ len →
    Span.bytes ⟨addr, len⟩ ⊆ mapped s →
      (unmap s addr len).1 = true ∧
        mapped (unmap s addr len).2 = mapped s \ Span.bytes ⟨addr, len⟩

/-- A system with the calls made to it. -/
structure Logged (σ : Type) where
  system : σ
  /-- The oldest call first. -/
  calls : List Note := []

instance {σ : Type} [Mapper σ] : Mapper (Logged σ) where
  pageSize := Mapper.pageSize σ
  pageSize_pow := Mapper.pageSize_pow
  eight_le_pageSize := Mapper.eight_le_pageSize
  map := fun s len =>
    let (grant, system) := Mapper.map s.system len
    (grant, ⟨system, s.calls ++ [.reserved len (grant.map Grant.base)]⟩)
  unmap := fun s addr len =>
    let (accepted, system) := Mapper.unmap s.system addr len
    (accepted, ⟨system, s.calls ++ [.released addr len accepted]⟩)

namespace AddressSpace

/-- The bytes mapped. Those of a range that leaves the address space do not
count where it does. -/
def bytes (s : AddressSpace) : Set ℕ :=
  {x | x < limit ∧ ∃ r ∈ s.mapped, Span.Covers ⟨r.1, r.2⟩ x}

theorem vacant_eq_true {s : AddressSpace} {addr len : ℕ} (h : s.vacant addr len = true) :
    pageSize ≤ addr ∧ pageSize ∣ addr ∧ addr + len ≤ limit ∧
      ∀ r ∈ s.mapped, addr + len ≤ r.1 ∨ r.1 + r.2 ≤ addr := by
  simpa [vacant, and_assoc, Nat.dvd_iff_mod_eq_zero] using h

/-- What is mapped anew starts in a vacant place. -/
theorem map_granted {s s' : AddressSpace} {len : ℕ} {g : Grant} (h : s.map len = (some g, s')) :
    0 < len ∧ s.vacant g.base len = true ∧ s' = ⟨(g.base, len) :: s.mapped⟩ := by
  unfold map at h
  split_ifs at h with hlen
  · simp at h
  · split at h
    · simp at h
    · next addr hplace =>
      obtain ⟨hg, rfl⟩ := Prod.mk.inj h
      obtain rfl := Option.some.inj hg
      rw [place?] at hplace
      have hvacant := List.find?_some hplace
      exact ⟨Nat.pos_of_ne_zero hlen, hvacant, rfl⟩

theorem map_refused {s s' : AddressSpace} {len : ℕ} (h : s.map len = (none, s')) : s' = s := by
  unfold map at h
  split_ifs at h with hlen
  · exact (Prod.mk.inj h).2.symm
  · split at h
    · exact (Prod.mk.inj h).2.symm
    · simp at h

theorem covers_outside {addr stop start n x : ℕ} (h : addr ≤ stop) :
    (∃ r ∈ outside addr stop start n, Span.Covers ⟨r.1, r.2⟩ x) ↔
      Span.Covers ⟨start, n⟩ x ∧ ¬ (addr ≤ x ∧ x < stop) := by
  unfold outside
  simp only [Span.Covers, Span.stop]
  split_ifs <;> simp <;> omega

theorem bytes_map {s : AddressSpace} {addr len : ℕ} (h : addr + len ≤ limit) :
    bytes ⟨(addr, len) :: s.mapped⟩ = s.bytes ∪ Span.bytes ⟨addr, len⟩ := by
  ext x
  simp only [bytes, Span.bytes, Set.mem_union, Set.mem_ofPred_eq, List.exists_mem_cons_iff]
  constructor
  · rintro ⟨hx, hnew | hold⟩
    · exact Or.inr hnew
    · exact Or.inl ⟨hx, hold⟩
  · rintro (⟨hx, hold⟩ | hnew)
    · exact ⟨hx, Or.inr hold⟩
    · exact ⟨hnew.2.trans_le h, Or.inl hnew⟩

theorem bytes_unmap {s : AddressSpace} {addr len : ℕ} :
    bytes ⟨s.mapped.flatMap fun (start, n) => outside addr (addr + len) start n⟩ =
      s.bytes \ Span.bytes ⟨addr, len⟩ := by
  ext x
  have hpieces : (∃ r ∈ s.mapped.flatMap fun (start, n) => outside addr (addr + len) start n,
      Span.Covers ⟨r.1, r.2⟩ x) ↔
      (∃ r ∈ s.mapped, Span.Covers ⟨r.1, r.2⟩ x) ∧ ¬ Span.Covers ⟨addr, len⟩ x := by
    constructor
    · rintro ⟨r, hr, hx⟩
      obtain ⟨q, hq, hrq⟩ := List.mem_flatMap.mp hr
      obtain ⟨hin, hout⟩ := (covers_outside (Nat.le_add_right addr len)).mp ⟨r, hrq, hx⟩
      exact ⟨⟨q, hq, hin⟩, hout⟩
    · rintro ⟨⟨q, hq, hin⟩, hout⟩
      obtain ⟨r, hr, hx⟩ := (covers_outside (Nat.le_add_right addr len)).mpr ⟨hin, hout⟩
      exact ⟨r, List.mem_flatMap.mpr ⟨q, hq, hr⟩, hx⟩
  simp only [bytes, Span.bytes, Set.mem_sdiff, Set.mem_ofPred_eq, hpieces, and_assoc]

theorem lawful : Mapper.Lawful bytes where
  granted := by
    intro s s' len g h
    obtain ⟨hlen, hvacant, rfl⟩ := map_granted h
    obtain ⟨hlow, haligned, hhigh, hfree⟩ := vacant_eq_true hvacant
    have hpage : 0 < pageSize := by decide
    have hlimit : limit ≤ layoutLimit := by decide
    refine ⟨hlen, hpage.trans_le hlow, haligned, hhigh.trans hlimit, ?_, bytes_map hhigh⟩
    rintro x hx ⟨-, r, hr, hcovers⟩
    have hd : Span.Disjoint ⟨g.base, len⟩ ⟨r.1, r.2⟩ := hfree r hr
    exact hd.not_mem_bytes hx hcovers
  refused := by
    intro s s' len h
    rw [map_refused h]
  unmapped := by
    intro s addr len hlen haddr _ hin
    have hlast : addr + len - 1 < limit :=
      (hin (show Span.Covers ⟨addr, len⟩ (addr + len - 1) by
        simp only [Span.Covers, Span.stop]
        omega)).1
    have hok : ¬ (len = 0 ∨ addr % pageSize ≠ 0 ∨ limit < addr + len) := by
      have hmod : addr % pageSize = 0 := Nat.mod_eq_zero_of_dvd haddr
      omega
    have hunmap : Mapper.unmap s addr len =
        (true, ⟨s.mapped.flatMap fun (start, n) => outside addr (addr + len) start n⟩) :=
      if_neg hok
    rw [hunmap]
    exact ⟨rfl, bytes_unmap⟩

end AddressSpace

end ChunkHeap
