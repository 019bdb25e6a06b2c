import Mathlib
import ChunkHeap.Proofs.Headers
import ChunkHeap.Proofs.Multiples

/-!
# From a chunk to its data and back

Data lies at the first aligned address behind the header of its chunk, wherever the chunk
starts. The hop is all that is written for it, never in the size word, and leads back from the
data to the chunk as long as nobody writes over it.
-/

set_option autoImplicit false

namespace ChunkHeap.Chunk

variable {chunk align k : ℕ}

theorem isLeast_dataAt (chunk : ℕ) (ha : 0 < align) :
    IsLeast {p | align ∣ p ∧ chunk + headerSize ≤ p} (dataAt chunk align) :=
  Word.isLeast_ceil _ ha

/-- An alignment that the chunk and its header have needs no hop. -/
theorem dataAt_eq_after_header (hc : 8 ∣ chunk) (hle : 2 ^ k ≤ 8) :
    dataAt chunk (2 ^ k) = chunk + headerSize := by
  have hk : k ≤ 3 := (Nat.pow_le_pow_iff_right (by decide)).mp hle
  have hd : 2 ^ k ∣ 8 := pow_dvd_pow 2 hk
  have hafter : 8 ∣ chunk + headerSize := Nat.dvd_add hc (Nat.dvd_refl 8)
  exact Word.ceil_eq_self (Nat.two_pow_pos k) (hd.trans hafter)

/-- Data at `data` in a chunk, where placing it has made `m'` of the memory `m`. -/
structure Seats (m m' : Memory) (chunk align data : ℕ) : Prop where
  least : IsLeast {p | align ∣ p ∧ chunk + 8 ≤ p} data
  near : chunk + 8 ≤ data ∧ data ≤ chunk + 7 + align
  unhopped : 8 ∣ chunk → align ≤ 8 → data = chunk + 8
  written : m.AgreesOff m' ⟨data - 4, 4⟩
  apart : Span.Disjoint ⟨chunk, 4⟩ ⟨data - 4, 4⟩
  size : size m' chunk = size m chunk
  hop : hopOf m' data = data - (chunk + 8)
  back : ∀ m'' : Memory, m'.AgreesOn m'' ⟨data - 4, 4⟩ → ofData m'' data = chunk

theorem walk_inverts_placement (m : Memory) (ha : align.isPowerOfTwo) (hmax : align ≤ 2 ^ 32)
    (hlimit : chunk + 8 + align < 2 ^ 64) :
    ∃ data m', placeData m chunk align = .ok (data, m') ∧ Seats m m' chunk align data := by
  obtain ⟨k, rfl⟩ := ha
  have hpos := Nat.two_pow_pos k
  have hafter : chunk + 8 ≤ dataAt chunk (2 ^ k) := after_header chunk hpos
  have hlt : dataAt chunk (2 ^ k) < chunk + 8 + 2 ^ k := dataAt_lt chunk hpos
  have hword : dataAt chunk (2 ^ k) - (chunk + 8) < 256 ^ 4 := by omega
  have hapart : Span.Disjoint ⟨chunk, 4⟩ ⟨dataAt chunk (2 ^ k) - 4, 4⟩ := by
    simp only [Span.Disjoint, Span.stop]
    omega
  refine ⟨_, _, placeData_two_pow hlimit, ?_⟩
  constructor
  case least => exact isLeast_dataAt chunk hpos
  case near => omega
  case unhopped => exact dataAt_eq_after_header
  case written => exact m.agreesOff_store (Span.Within.refl _)
  case apart => exact hapart
  case size =>
    exact ((m.agreesOn_store (Span.Within.refl _) hapart).load_eq (Span.Within.refl _)).symm
  case hop =>
    rw [hopOf, Memory.load_store]
    exact Nat.mod_eq_of_lt hword
  case back =>
    intro m'' hm
    have hhop := hm.load_eq (Span.Within.refl _)
    rw [← ofData_congr hhop]
    exact ofData_store hafter hword

/-- The greatest alignment, in a chunk that makes the hop the greatest word of 32 bits. -/
theorem walk_inverts_placement_farthest :
    (Nat.isPowerOfTwo (2 ^ 32) ∧ 2 ^ 32 ≤ 2 ^ 32 ∧ 2 ^ 44 - 7 + 8 + 2 ^ 32 < 2 ^ 64) ∧
    ∃ data m', placeData .zero (2 ^ 44 - 7) (2 ^ 32) = .ok (data, m') ∧
      Seats .zero m' (2 ^ 44 - 7) (2 ^ 32) data :=
  have hpower : Nat.isPowerOfTwo (2 ^ 32) := ⟨32, rfl⟩
  ⟨⟨hpower, by decide, by decide⟩,
    walk_inverts_placement .zero hpower (by decide) (by decide)⟩

end ChunkHeap.Chunk
