import Mathlib
import ChunkHeap.Proofs.Rounding
import ChunkHeap.Proofs.Span

/-!
# What header words say

Links, size words and hops are read as they were written. A chain is the list
of free chunks that the links lead through. A place is where the chunk of a
pointer is, and `Shows` that the header words of the pointer say so. Both
depend only on bytes of the chunks themselves, for a place only on those in
front of the pointer.
-/

set_option autoImplicit false

namespace ChunkHeap

namespace Chunk

variable {m m' : Memory} {chunk : ℕ}

theorem size_setSize {n : ℕ} (h : n < 256 ^ 4) : size (setSize m chunk n) chunk = n := by
  rw [size, setSize, Memory.load_store, Nat.mod_eq_of_lt h]

theorem next?_setNext {next : Option ℕ} (h : ∀ x ∈ next, 0 < x ∧ x < 256 ^ 8) :
    next? (setNext m chunk next) chunk = next := by
  have hload : (setNext m chunk next).load chunk 8 = next.getD 0 := by
    rw [setNext, Memory.load_store, Nat.mod_eq_of_lt]
    cases next with
    | none => simp
    | some x => exact (h x rfl).2
  unfold next?
  rw [hload]
  cases next with
  | none => rfl
  | some x =>
    obtain ⟨n, rfl⟩ := Nat.exists_eq_succ_of_ne_zero (h x rfl).1.ne'
    rfl

theorem total_pos (size align : ℕ) : 0 < headerSize + size + align := by
  unfold headerSize
  omega

def dataAt (chunk align : ℕ) : ℕ := Word.ceil (chunk + headerSize) align

theorem after_header (chunk : ℕ) {align : ℕ} (ha : 0 < align) :
    chunk + headerSize ≤ dataAt chunk align :=
  Word.le_ceil _ ha

theorem dataAt_lt (chunk : ℕ) {align : ℕ} (ha : 0 < align) :
    dataAt chunk align < chunk + headerSize + align :=
  Word.ceil_lt _ ha

theorem placeData_two_pow {k : ℕ} (h : chunk + headerSize + 2 ^ k < wordLimit) :
    placeData m chunk (2 ^ k) = .ok (dataAt chunk (2 ^ k),
      m.store (dataAt chunk (2 ^ k) - 4) 4 (dataAt chunk (2 ^ k) - (chunk + headerSize))) := by
  have hk := Nat.two_pow_pos k
  have hle : chunk + headerSize ≤ dataAt chunk (2 ^ k) := after_header chunk hk
  have hh : hop chunk (2 ^ k) = .ok (dataAt chunk (2 ^ k) - (chunk + headerSize)) := by
    rw [hop, Word.add_eq_ok (by omega)]
    change (do
      let aligned ← Word.roundUp (chunk + headerSize) (2 ^ k)
      Word.sub aligned (chunk + headerSize) : Except Fault ℕ) = _
    rw [Word.roundUp_two_pow h]
    exact Word.sub_eq_ok hle
  rw [placeData, hh]
  change Except.ok (_, _) = _
  rw [Nat.add_sub_cancel' hle]

theorem ofData_congr {data : ℕ} (h : hopOf m data = hopOf m' data) :
    ofData m data = ofData m' data := by
  rw [ofData, ofData, h]

theorem ofData_eq {data : ℕ} (h : hopOf m data = data - (chunk + headerSize))
    (hle : chunk + headerSize ≤ data) : ofData m data = chunk := by
  rw [ofData, h]
  omega

theorem ofData_store {data : ℕ} (hle : chunk + headerSize ≤ data)
    (hlt : data - (chunk + headerSize) < 256 ^ 4) :
    ofData (m.store (data - 4) 4 (data - (chunk + headerSize))) data = chunk :=
  ofData_eq (by rw [hopOf, Memory.load_store, Nat.mod_eq_of_lt hlt]) hle

/-- The free chunks that a link and those after it lead to, up to a link of
zero. -/
inductive Chain (m : Memory) : Option ℕ → List ℕ → Prop
  | nil : Chain m none []
  | cons {chunk : ℕ} {rest : List ℕ} (next : Chain m (next? m chunk) rest) :
      Chain m (some chunk) (chunk :: rest)

namespace Chain

variable {head : Option ℕ} {chunks : List ℕ}

theorem nil_iff : Chain m head [] ↔ head = none := by
  constructor
  · intro h
    cases h
    rfl
  · rintro rfl
    exact .nil

theorem cons_iff : Chain m head (chunk :: chunks) ↔
    head = some chunk ∧ Chain m (next? m chunk) chunks := by
  constructor
  · intro h
    cases h with
    | cons next => exact ⟨rfl, next⟩
  · rintro ⟨rfl, h⟩
    exact .cons h

theorem head_eq (h : Chain m head chunks) : head = chunks.head? := by
  cases h <;> rfl

/-- The links lead through one list only. -/
theorem unique {chunks' : List ℕ} (h : Chain m head chunks) (h' : Chain m head chunks') :
    chunks = chunks' := by
  induction h generalizing chunks' with
  | nil =>
    cases h'
    rfl
  | cons next ih =>
    cases h' with
    | cons next' => rw [ih next']

theorem congr (h : Chain m head chunks) (hm : ∀ x ∈ chunks, m.AgreesOn m' ⟨x, 8⟩) :
    Chain m' head chunks := by
  induction h with
  | nil => exact .nil
  | @cons chunk rest next ih =>
    have hl : m.load chunk 8 = m'.load chunk 8 := (hm chunk (by simp)).load_eq (Span.Within.refl _)
    have hn : next? m chunk = next? m' chunk := by unfold next?; rw [hl]
    exact .cons (hn ▸ ih fun x hx => hm x (by simp [hx]))

end Chain

end Chunk

/-- Where the chunk of a pointer is. -/
inductive Place where
  | pooled (c : SizeClass) (chunk padded : ℕ)
  | reserved (base len : ℕ)
  deriving DecidableEq, Repr

namespace Place

def chunk : Place → ℕ
  | .pooled _ chunk _ => chunk
  | .reserved base _ => base + Chunk.oversizedPrefix

/-- All bytes of the chunk or of its reservation. -/
def extent : Place → Span
  | .pooled _ chunk padded => ⟨chunk, padded⟩
  | .reserved base len => ⟨base, len⟩

def word : Place → ℕ
  | .pooled _ _ padded => padded
  | .reserved .. => Chunk.oversizedMarker

def piece? : Place → Option Span
  | .pooled _ chunk padded => some ⟨chunk, padded⟩
  | .reserved .. => none

def reservation? : Place → Option Span
  | .pooled .. => none
  | .reserved base len => some ⟨base, len⟩

/-- The place of the chunk handed out for `total` bytes. -/
def of (total chunk : ℕ) : Place :=
  match Regime.ofSize total with
  | .pooled c => .pooled c chunk (Word.ceil total c.unit)
  | .oversized => .reserved (chunk - Chunk.oversizedPrefix) (total + Chunk.oversizedPrefix)

theorem start_le_chunk (p : Place) : p.extent.start ≤ p.chunk := by
  cases p
  · exact Nat.le_refl _
  · exact Nat.le_add_right _ _

theorem chunk_of (total : ℕ) {chunk : ℕ} (h : Chunk.oversizedPrefix ≤ chunk) :
    (of total chunk).chunk = chunk := by
  unfold of
  split
  · rfl
  · exact Nat.sub_add_cancel h

theorem of_start (total chunk : ℕ) : (of total chunk).extent.start ≤ chunk := by
  unfold of
  split
  · exact Nat.le_refl _
  · exact Nat.sub_le _ _

theorem of_stop (total : ℕ) {chunk : ℕ} (h : Chunk.oversizedPrefix ≤ chunk) :
    chunk + total ≤ (of total chunk).extent.stop := by
  unfold of
  split
  · exact Nat.add_le_add_left (Word.le_ceil total (SizeClass.unit_pos _)) chunk
  · simp only [extent, Span.stop]
    omega

theorem of_pooled {total : ℕ} {c : SizeClass} (h0 : 0 < total)
    (hc : Regime.ofSize total = .pooled c) : ∃ i, Regime.ofSize (c.bucketSize i) = .pooled c ∧
      ∀ chunk, of total chunk = .pooled c chunk (c.bucketSize i) := by
  obtain ⟨i, hi⟩ := Regime.exists_bucket h0 hc
  use i
  constructor
  · rw [← hi]
    exact Regime.ofSize_ceil h0 hc
  · intro chunk
    rw [of, hc]
    simp only [hi]

theorem of_oversized {total base : ℕ} (hc : Regime.ofSize total = .oversized) :
    of total (base + Chunk.oversizedPrefix) = .reserved base (total + Chunk.oversizedPrefix) := by
  rw [of, hc]
  simp only [Nat.add_sub_cancel]

theorem ofSize_word {total : ℕ} (chunk : ℕ) (h0 : 0 < total) :
    Regime.ofSize (of total chunk).word = Regime.ofSize total := by
  cases hc : Regime.ofSize total with
  | pooled c =>
    obtain ⟨i, hi, hplace⟩ := of_pooled h0 hc
    rw [hplace]
    exact hi
  | oversized =>
    have hmarker : Regime.ofSize Chunk.oversizedMarker = .oversized := by decide
    rw [of, hc]
    exact hmarker

/-- The words at the start of a chunk tell its size or its reservation. -/
structure Headed (m : Memory) (p : Place) : Prop where
  word : Chunk.size m p.chunk = p.word
  length : ∀ r ∈ p.reservation?, m.load r.start 8 = r.len

/-- The header words of a pointer tell its place. -/
structure Shows (m : Memory) (ptr : ℕ) (p : Place) : Prop where
  after : p.chunk + Chunk.headerSize ≤ ptr
  before : ptr < p.extent.stop
  chunk : Chunk.ofData m ptr = p.chunk
  headed : p.Headed m

variable {m m' : Memory} {ptr : ℕ} {p : Place}

theorem Headed.congr (h : p.Headed m)
    (hm : m.AgreesOn m' ⟨p.extent.start, p.chunk + 4 - p.extent.start⟩) : p.Headed m' := by
  have hs := p.start_le_chunk
  constructor
  · have hl : m.load p.chunk 4 = m'.load p.chunk 4 :=
      hm.load_eq ⟨hs, by simp only [Span.stop]; omega⟩
    exact hl.symm.trans h.word
  · intro r hr
    rw [← h.length r hr]
    cases p with
    | pooled => simp [reservation?] at hr
    | reserved base len =>
      obtain rfl : ⟨base, len⟩ = r := by simpa [reservation?] using hr
      symm
      apply hm.load_eq
      simp only [Span.Within, extent, Place.chunk, Chunk.oversizedPrefix, Span.stop]
      omega

namespace Shows

/-- Only bytes in front of the pointer matter. -/
theorem congr (h : p.Shows m ptr)
    (hm : m.AgreesOn m' ⟨p.extent.start, ptr - p.extent.start⟩) : p.Shows m' ptr := by
  have hs := p.start_le_chunk
  have ha := h.after
  unfold Chunk.headerSize at ha
  have hc : Chunk.ofData m ptr = Chunk.ofData m' ptr := by
    apply Chunk.ofData_congr
    apply hm.load_eq
    simp only [Span.Within, Span.stop]
    omega
  have hw : Span.Within ⟨p.extent.start, p.chunk + 4 - p.extent.start⟩
      ⟨p.extent.start, ptr - p.extent.start⟩ := by
    simp only [Span.Within, Span.stop]
    omega
  exact ⟨h.after, h.before, hc.symm.trans h.chunk, h.headed.congr (hm.mono hw)⟩

/-- With its hop recorded, a pointer into a chunk leads back to the words at its start. -/
theorem of_store (hh : p.Headed m) (after : p.chunk + Chunk.headerSize ≤ ptr)
    (before : ptr < p.extent.stop) (hop : ptr - (p.chunk + Chunk.headerSize) < 256 ^ 4) :
    p.Shows (m.store (ptr - 4) 4 (ptr - (p.chunk + Chunk.headerSize))) ptr := by
  have hs := p.start_le_chunk
  refine ⟨after, before, Chunk.ofData_store after hop, hh.congr ?_⟩
  apply Memory.agreesOn_store m (Span.Within.refl _)
  simp only [Chunk.headerSize, Span.Disjoint, Span.stop] at *
  omega

theorem covers (h : p.Shows m ptr) : p.extent.Covers ptr :=
  ⟨p.start_le_chunk.trans ((Nat.le_add_right _ _).trans h.after), h.before⟩

end Shows

end Place

end ChunkHeap
