import ChunkHeap.Chunk
import ChunkHeap.RegionSource
import ChunkHeap.SizeClass

/-!
# Buckets of free chunks

A table pads sizes to multiples of its unit and keeps a list of free chunks
for each of the first 256 multiples. Only the first chunk of a list is in the
table. The others follow from the links that free chunks hold in their own
first bytes. A chunk that was put back last is taken first, and an empty
bucket has a chunk carved for it.
-/

set_option autoImplicit false

namespace ChunkHeap

structure BucketTable where
  unit : Nat
  heads : Vector (Option Nat) bucketCount := Vector.replicate bucketCount none
  /-- Number of free chunks in all buckets. -/
  count : Nat := 0
  deriving DecidableEq, Repr

namespace BucketTable

/-- The bucket of a padded size, not bounded by the number of buckets. -/
def bucketIndex (t : BucketTable) (padded : Nat) : Except Fault Nat :=
  Word.sub (padded / t.unit) 1

/-- A bucket of the table. -/
def bucket (t : BucketTable) (padded : Nat) : Except Fault (Fin bucketCount) :=
  match t.bucketIndex padded with
  | .error fault => .error fault
  | .ok index =>
      if h : index < bucketCount then .ok ⟨index, h⟩
      else .error (.indexOutOfBounds bucketCount index)

/-- The padded size of a request and its bucket. -/
def fit (t : BucketTable) (size : Nat) : Except Fault (Nat × Fin bucketCount) := do
  let padded ← Word.roundUp size t.unit
  let i ← t.bucket padded
  return (padded, i)

/-- Takes the first chunk of a bucket. The bucket has already lost the chunk
when the count turns out to be wrong. -/
def pop (t : BucketTable) (i : Fin bucketCount) (chunk : Nat) (m : Memory) :
    Except Fault Nat × BucketTable :=
  let t := { t with heads := t.heads.set i.val (Chunk.next? m chunk) i.isLt }
  match Word.sub t.count 1 with
  | .error fault => (.error fault, t)
  | .ok count => (.ok chunk, { t with count })

/-- Puts a chunk in front of its bucket, linked to the one that was there. A
padded size that no chunk of the table has is a fault. -/
def put (t : BucketTable) (padded chunk : Nat) (m : Memory) :
    Except Fault Unit × BucketTable × Memory :=
  if padded = 0 then (.error (.corruptedHeader padded t.unit), t, m)
  else if t.unit = 0 then (.error .zeroDivisor, t, m)
  else if padded % t.unit ≠ 0 then (.error (.corruptedHeader padded t.unit), t, m)
  else
    match t.bucket padded with
    | .error fault => (.error fault, t, m)
    | .ok i =>
        let m := Chunk.setNext m chunk (t.heads.get i)
        (.ok (), { t with
          heads := t.heads.set i.val (some chunk) i.isLt
          count := t.count + 1 }, m)

variable {π : Type} [Platform π]

/-- A chunk of a padded size from its bucket, or a carved one. -/
def obtain (t : BucketTable) (padded : Nat) (i : Fin bucketCount) (r : RegionSource)
    (w : Machine π) : Except Failure Nat × BucketTable × RegionSource × Machine π :=
  match t.heads.get i with
  | some chunk =>
      let (result, t) := t.pop i chunk w.memory
      (result.mapError .fault, t, r, w)
  | none =>
      let (result, r, w) := r.carve padded (w.report (.bucketEmpty padded t.unit))
      (result, t, r, w)

/-- A chunk of at least `size` bytes with its padded size in its header. -/
def take (t : BucketTable) (size : Nat) (r : RegionSource) (w : Machine π) :
    Except Failure Nat × BucketTable × RegionSource × Machine π :=
  match t.fit size with
  | .error fault => (.error (.fault fault), t, r, w)
  | .ok (padded, i) =>
      match t.obtain padded i r w with
      | (.error failure, t, r, w) => (.error failure, t, r, w)
      | (.ok chunk, t, r, w) =>
          (.ok chunk, t, r, { w with memory := Chunk.setSize w.memory chunk padded })

end BucketTable

end ChunkHeap
