import Mathlib
import ChunkHeap.BucketTable
import ChunkHeap.Proofs.Rounding

/-!
# Which sizes have a bucket

The buckets of a table stand for the first multiples of its unit, whatever power
of two that is. A size that is padded to any other multiple is a fault, and so
is a size word that is none of them.
-/

set_option autoImplicit false

namespace ChunkHeap

namespace BucketTable

variable {t : BucketTable} {padded size : ℕ}

theorem bucket_multiple (hu : 0 < t.unit) (i : Fin bucketCount) :
    t.bucket (t.unit * (i.val + 1)) = .ok i := by
  have hidx : t.bucketIndex (t.unit * (i.val + 1)) = .ok i.val := by
    rw [bucketIndex, Nat.mul_div_cancel_left _ hu]
    exact Word.sub_eq_ok (Nat.le_add_left 1 i.val)
  rw [bucket, hidx]
  simp

theorem bucket_zero (t : BucketTable) : t.bucket 0 = .error .subOverflow := by
  have hidx : t.bucketIndex 0 = .error .subOverflow := by
    rw [bucketIndex, Nat.zero_div]
    rfl
  rw [bucket, hidx]

theorem bucket_beyond (h : bucketCount < padded / t.unit) :
    t.bucket padded = .error (.indexOutOfBounds bucketCount (padded / t.unit - 1)) := by
  have hidx : t.bucketIndex padded = .ok (padded / t.unit - 1) := Word.sub_eq_ok (by omega)
  rw [bucket, hidx]
  exact dif_neg (by omega)

/-- A multiple of the unit has a bucket unless it is zero or too big. -/
theorem exists_multiple (hd : t.unit ∣ padded) (h0 : padded ≠ 0)
    (hle : padded / t.unit ≤ bucketCount) :
    ∃ i : Fin bucketCount, padded = t.unit * (i.val + 1) := by
  obtain ⟨n, rfl⟩ := hd
  have hu : 0 < t.unit := Nat.pos_of_ne_zero (left_ne_zero_of_mul h0)
  have hn : 0 < n := Nat.pos_of_ne_zero (right_ne_zero_of_mul h0)
  rw [Nat.mul_div_cancel_left n hu] at hle
  exact ⟨⟨n - 1, by omega⟩, by rw [Nat.sub_add_cancel hn]⟩

/-- A size word that no chunk of the table has. -/
def Misfit (t : BucketTable) (padded : ℕ) : Prop :=
  padded = 0 ∨ ¬ t.unit ∣ padded ∨ bucketCount < padded / t.unit

/-- A size that the table cannot pad to the size of a bucket. -/
def Unfit (t : BucketTable) (size : ℕ) : Prop :=
  size = 0 ∨ wordLimit ≤ size + t.unit ∨ bucketCount < Word.ceil size t.unit / t.unit

theorem put_multiple (hu : 0 < t.unit) (i : Fin bucketCount) (chunk : ℕ) (m : Memory) :
    t.put (t.unit * (i.val + 1)) chunk m = (.ok (), { t with
      heads := t.heads.set i.val (some chunk) i.isLt
      count := t.count + 1 }, Chunk.setNext m chunk (t.heads.get i)) := by
  have hpos : t.unit * (i.val + 1) ≠ 0 := Nat.mul_ne_zero (by omega) (Nat.succ_ne_zero _)
  rw [put, if_neg hpos, if_neg (by omega), if_neg (by simp), bucket_multiple hu]

/-- The fault comes before the link is written and before the bucket changes. -/
theorem put_misfit (hu : 0 < t.unit) (h : t.Misfit padded) (chunk : ℕ) (m : Memory) :
    ∃ fault, t.put padded chunk m = (.error fault, t, m) := by
  unfold put
  split_ifs with hzero hunit hmod
  · exact ⟨_, rfl⟩
  · omega
  · exact ⟨_, rfl⟩
  · have hfar : bucketCount < padded / t.unit := by
      rcases h with h | h | h
      · exact absurd h hzero
      · exact absurd (Nat.dvd_of_mod_eq_zero (not_not.mp hmod)) h
      · exact h
    rw [bucket_beyond hfar]
    exact ⟨_, rfl⟩

theorem put_cases (hu : 0 < t.unit) (padded chunk : ℕ) (m : Memory) :
    (t.Misfit padded ∧ ∃ fault, t.put padded chunk m = (.error fault, t, m)) ∨
    (¬ t.Misfit padded ∧ ∃ i : Fin bucketCount, t.put padded chunk m = (.ok (), { t with
      heads := t.heads.set i.val (some chunk) i.isLt
      count := t.count + 1 }, Chunk.setNext m chunk (t.heads.get i))) := by
  by_cases h : t.Misfit padded
  · exact Or.inl ⟨h, put_misfit hu h chunk m⟩
  · obtain ⟨h0, hd, hle⟩ : padded ≠ 0 ∧ t.unit ∣ padded ∧ padded / t.unit ≤ bucketCount := by
      simpa [Misfit] using h
    obtain ⟨i, rfl⟩ := exists_multiple hd h0 hle
    exact Or.inr ⟨h, i, put_multiple hu i chunk m⟩

variable {k : ℕ} (hu : t.unit = 2 ^ k)
include hu

theorem fit_multiple {i : Fin bucketCount} (hsum : size + t.unit < wordLimit)
    (hi : Word.ceil size t.unit = t.unit * (i.val + 1)) :
    t.fit size = .ok (Word.ceil size t.unit, i) := by
  have hround : Word.roundUp size t.unit = .ok (Word.ceil size t.unit) := by
    rw [hu] at hsum ⊢
    exact Word.roundUp_two_pow hsum
  rw [fit, hround]
  change (do
    let j ← t.bucket (Word.ceil size t.unit)
    return (Word.ceil size t.unit, j) : Except Fault (ℕ × Fin bucketCount)) = _
  rw [hi, bucket_multiple (by rw [hu]; exact Nat.two_pow_pos k)]
  rfl

theorem fit_unfit (h : t.Unfit size) : ∃ fault, t.fit size = .error fault := by
  by_cases hsum : size + t.unit < wordLimit
  · have hround : Word.roundUp size t.unit = .ok (Word.ceil size t.unit) := by
      rw [hu] at hsum ⊢
      exact Word.roundUp_two_pow hsum
    have hbucket : ∃ fault, t.bucket (Word.ceil size t.unit) = .error fault := by
      rcases h with rfl | h | h
      · have hceil : Word.ceil 0 t.unit = 0 := Nat.le_zero.mp (Word.ceil_le (dvd_zero _) le_rfl)
        rw [hceil, bucket_zero]
        exact ⟨_, rfl⟩
      · omega
      · rw [bucket_beyond h]
        exact ⟨_, rfl⟩
    obtain ⟨fault, hfault⟩ := hbucket
    use fault
    rw [fit, hround]
    change (do
      let j ← t.bucket (Word.ceil size t.unit)
      return (Word.ceil size t.unit, j) : Except Fault (ℕ × Fin bucketCount)) = _
    rw [hfault]
    rfl
  · use .addOverflow
    rw [fit, Word.roundUp_overflow (Nat.le_of_not_lt hsum)]
    rfl

theorem fit_cases (size : ℕ) :
    (t.Unfit size ∧ ∃ fault, t.fit size = .error fault) ∨
    (¬ t.Unfit size ∧ ∃ i : Fin bucketCount, Word.ceil size t.unit = t.unit * (i.val + 1) ∧
      t.fit size = .ok (Word.ceil size t.unit, i)) := by
  by_cases h : t.Unfit size
  · exact Or.inl ⟨h, fit_unfit hu h⟩
  · obtain ⟨h0, hsum, hle⟩ : size ≠ 0 ∧ size + t.unit < wordLimit ∧
        Word.ceil size t.unit / t.unit ≤ bucketCount := by
      simpa [Unfit] using h
    have hle' := Word.le_ceil size (show 0 < t.unit by rw [hu]; exact Nat.two_pow_pos k)
    obtain ⟨i, hi⟩ := exists_multiple (Word.dvd_ceil size t.unit) (by omega) hle
    exact Or.inr ⟨h, i, hi, fit_multiple hu hsum hi⟩

end BucketTable

end ChunkHeap
