import ChunkHeap.BucketTable
import ChunkHeap.Script.Chunk

/-!
# Scripts on a bucket table

Steps on one bucket table and one region source over the arena. Chunks may be
put back at any offset whose first eight bytes are held and under any size.
The offset is looked at before the size, which may turn out unreadable.
-/

set_option autoImplicit false

namespace ChunkHeap.Script

inductive BucketStep where
  | raw (raw : Raw) (offset : Int)
  | take (size : Nat)
  | put (offset : Int) (padded : Option Nat)
  deriving DecidableEq, Repr

inductive BucketAnswer where
  | done
  | bytes (bs : List UInt8)
  /-- A chunk with the size word that it got. -/
  | chunk (offset : Int) (size : Nat)
  deriving DecidableEq, Repr

/-- What a script shows of a table and its source. -/
structure BucketState where
  free : Nat
  regions : Nat
  cursor : Nat
  deriving DecidableEq, Repr

structure BucketReport where
  answer : Except Trouble BucketAnswer
  notes : List Note
  /-- The state after the step, unless the step was on raw memory or was not
  carried out. -/
  state : Option BucketState

/-- The report on a step that cannot be read. -/
def BucketReport.unread : BucketReport := ⟨.error (.complaint .badInput), [], none⟩

def bucketState (t : BucketTable) (r : RegionSource) : BucketState :=
  ⟨t.count, r.bases.length, r.cursor⟩

def BucketStep.perform (t : BucketTable) (r : RegionSource) (b : Bench) :
    BucketStep → BucketReport × BucketTable × RegionSource × Bench
  | .raw step offset =>
      let (answer, b) := b.perform step offset
      (⟨answer.map fun bs => bs.elim .done .bytes, [], none⟩, t, r, b)
  | .take size =>
      let (result, t, r, b) := t.take size r b
      let answer := match result with
        | .error failure => .error (.failure failure)
        | .ok chunk => .ok (.chunk (Arena.offset chunk) (Chunk.size b.memory chunk))
      (⟨answer, b.journal, some (bucketState t r)⟩, t, r, b.quiet)
  | .put offset padded =>
      if b.arena.holds (Arena.address offset) headerRange then
        match padded with
        | none => (.unread, t, r, b)
        | some padded =>
            let (result, t, memory) := t.put padded (Arena.address offset).toNat b.memory
            let answer := match result with
              | .error fault => .error (.fault fault)
              | .ok () => .ok .done
            (⟨answer, [], some (bucketState t r)⟩, t, r, { b with memory })
      else (⟨.error (.complaint .badAddress), [], none⟩, t, r, b)

def runBucket (terms : Terms) (unit regionSize : Nat) (steps : List (Option BucketStep)) :
    List BucketReport :=
  go { unit } { regionSize } (Bench.fresh terms) steps
where
  go (t : BucketTable) (r : RegionSource) (b : Bench) :
      List (Option BucketStep) → List BucketReport
    | [] => []
    | none :: rest => .unread :: go t r b rest
    | some step :: rest =>
        let (report, t, r, b) := step.perform t r b
        report :: go t r b rest

end ChunkHeap.Script
