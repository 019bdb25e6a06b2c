import ChunkHeap.Chunk
import ChunkHeap.Script.Bench

/-!
# Scripts on chunk headers

Steps on one reservation of the arena. Every step but raw reading and writing
is carried out only if the eight bytes at its offset are held. A step whose
offset can be read is refused for its offset first and only then for an
operation that cannot be read.
-/

set_option autoImplicit false

namespace ChunkHeap.Script

inductive ChunkOp where
  | size
  | setSize (size : Nat)
  | next
  | setNext (next : Option Int)
  | placeData (align : Nat)
  /-- The offset is that of the data. -/
  | ofData
  /-- The offset is that of the reservation. -/
  | oversized (reserved : Nat)
  | reservation
  deriving DecidableEq, Repr

inductive ChunkStep where
  | raw (raw : Raw) (offset : Int)
  /-- An operation on the header at an offset, if it can be read. -/
  | header (op : Option ChunkOp) (offset : Int)
  deriving DecidableEq, Repr

inductive ChunkAnswer where
  | done
  | bytes (bs : List UInt8)
  | size (n : Nat)
  | next (offset : Option Int)
  | data (offset : Int)
  | start (offset : Int)
  | reservation (offset : Int) (len : Nat)
  deriving DecidableEq, Repr

namespace ChunkOp

def perform (m : Memory) (chunk : Nat) :
    ChunkOp → Except Fault (ChunkAnswer × Memory)
  | .size => .ok (.size (Chunk.size m chunk), m)
  | .setSize n => .ok (.done, Chunk.setSize m chunk n)
  | .next => .ok (.next ((Chunk.next? m chunk).map Arena.offset), m)
  | .setNext link =>
      .ok (.done, Chunk.setNext m chunk (link.map Arena.wordAt))
  | .placeData align => do
      let (data, m) ← Chunk.placeData m chunk align
      return (.data (Arena.offset data), m)
  | .ofData => .ok (.start (Arena.offset (Chunk.ofData m chunk)), m)
  | .oversized reserved =>
      let (start, m) := Chunk.oversized m chunk reserved
      .ok (.start (Arena.offset start), m)
  | .reservation =>
      let (base, len) := Chunk.reservation m chunk
      .ok (.reservation (Arena.offset base) len, m)

end ChunkOp

/-- Length of the range that a header step needs. -/
def headerRange : Nat := 8

def ChunkStep.perform (b : Bench) : ChunkStep → Except Trouble ChunkAnswer × Bench
  | .raw step offset =>
      let (answer, b) := b.perform step offset
      (answer.map fun bs => bs.elim .done .bytes, b)
  | .header op offset =>
      if b.arena.holds (Arena.address offset) headerRange then
        match op with
        | none => (.error (.complaint .badInput), b)
        | some op =>
            match op.perform b.memory (Arena.address offset).toNat with
            | .error fault => (.error (.fault fault), b)
            | .ok (answer, memory) => (.ok answer, { b with memory })
      else (.error (.complaint .badAddress), b)

/-- The steps in turn on a reservation of `len` bytes. -/
def runChunk (terms : Terms) (len : Nat) (steps : List (Option ChunkStep)) :
    List (Except Trouble ChunkAnswer) :=
  go ((Bench.fresh terms).reserve len).2 steps
where
  go (b : Bench) : List (Option ChunkStep) → List (Except Trouble ChunkAnswer)
    | [] => []
    | none :: rest => .error (.complaint .badInput) :: go b rest
    | some step :: rest =>
        let (answer, b) := step.perform b
        answer :: go b rest

end ChunkHeap.Script
