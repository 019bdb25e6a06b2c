import ChunkHeap.BucketTable
import ChunkHeap.Config
import ChunkHeap.Heap.Layout

/-!
# The heap

A request is for a size and an alignment. Header, data and the slack for the
alignment together decide whether a chunk comes from the bucket table of a
size class or has a reservation of its own. To free it, the heap needs no more
than the pointer: the hop word leads to the chunk, and the size word in the
chunk to its bucket or its reservation.

Every operation answers with the state it leaves, also when it fails.
-/

set_option autoImplicit false

namespace ChunkHeap

/-- A pointer handed out together with what was asked for and whose it is. -/
structure Block where
  ptr : Nat
  len : Nat
  regime : Regime
  owner : Nat
  deriving DecidableEq, Repr

structure Stats where
  regions : Nat
  regionSize : Nat
  cursor : Nat
  freeSmall : Nat
  freeMedium : Nat
  freeBig : Nat
  oversizedLive : Nat
  deriving DecidableEq, Repr

structure Heap where
  /-- Tells the blocks of this heap from those of other heaps. -/
  id : Nat
  tables : SizeClass → BucketTable
  regions : RegionSource
  /-- Number of oversized chunks handed out and not freed. -/
  oversized : Nat

namespace Heap

/-- A heap that holds no memory. -/
def empty (id regionSize : Nat) : Heap where
  id := id
  tables := fun c => { unit := c.unit }
  regions := { regionSize := regionSize }
  oversized := 0

def ofConfig (id : Nat) (config : Config) : Except Refusal Heap := do
  let config ← config.validate
  return empty id config.regionSize

def withTable (h : Heap) (c : SizeClass) (t : BucketTable) : Heap :=
  { h with tables := fun c' => if c' = c then t else h.tables c' }

def stats (h : Heap) : Stats where
  regions := h.regions.bases.length
  regionSize := h.regions.regionSize
  cursor := h.regions.cursor
  freeSmall := (h.tables .small).count
  freeMedium := (h.tables .medium).count
  freeBig := (h.tables .big).count
  oversizedLive := h.oversized

/-- Four gibibytes. A hop is below the alignment and has four bytes to be
recorded in. -/
def maxAlignment : Nat := 0x100000000

def alignmentAllowed (align : Nat) : Bool := align.isPowerOfTwo && align ≤ maxAlignment

/-- Header, data and slack for the alignment. -/
def totalSize (size align : Nat) : Except Fault Nat := do
  let used ← Word.add Chunk.headerSize size
  Word.add used align

variable {π : Type} [Platform π]

/-- A chunk with a reservation of its own. A length that leaves the word range
is refused in terms of the whole chunk, whose alignment no longer matters. -/
def takeOversized (h : Heap) (total : Nat) (w : Machine π) :
    Except Failure Nat × Heap × Machine π :=
  let reserved := total + Chunk.oversizedPrefix
  if wordLimit ≤ reserved then (.error (.refused (.sizeOverflow total 1)), h, w)
  else
    match w.reserve reserved with
    | (none, w) => (.error (.refused (.outOfMemory reserved)), h, w)
    | (some base, w) =>
        let w := w.report (.reservedOversized base reserved)
        let (chunk, memory) := Chunk.oversized w.memory base reserved
        (.ok chunk, { h with oversized := h.oversized + 1 }, { w with memory })

/-- A chunk of at least `total` bytes. -/
def takeChunk (h : Heap) (total : Nat) (w : Machine π) :
    Except Failure Nat × Heap × Machine π :=
  match Regime.ofSize total with
  | .pooled c =>
      let (result, t, regions, w) := (h.tables c).take total h.regions w
      (result, { h.withTable c t with regions }, w)
  | .oversized => h.takeOversized total w

/-- The pointer to `size` bytes aligned to `align`. -/
def alloc (h : Heap) (size align : Nat) (w : Machine π) :
    Except Failure Nat × Heap × Machine π :=
  if !alignmentAllowed align then (.error (.refused (.invalidAlignment align)), h, w)
  else
    match totalSize size align with
    | .error _ => (.error (.refused (.sizeOverflow size align)), h, w)
    | .ok total =>
        match h.takeChunk total w with
        | (.error failure, h, w) => (.error failure, h, w)
        | (.ok chunk, h, w) =>
            match Chunk.placeData w.memory chunk align with
            | .error fault => (.error (.fault fault), h, w)
            | .ok (data, memory) => (.ok data, h, { w with memory })

/-- Gives a whole reservation back. The platform has it already when the count
of oversized chunks turns out to be wrong. -/
def freeOversized (h : Heap) (chunk : Nat) (w : Machine π) :
    Except Fault Unit × Heap × Machine π :=
  let (base, reserved) := Chunk.reservation w.memory chunk
  let w := (w.report (.releasingOversized base reserved)).release base reserved
  match Word.sub h.oversized 1 with
  | .error fault => (.error fault, h, w)
  | .ok oversized => (.ok (), { h with oversized }, w)

/-- Gives the chunk of a pointer back to its bucket or to the platform. -/
def free (h : Heap) (ptr : Nat) (w : Machine π) : Except Fault Unit × Heap × Machine π :=
  let chunk := Chunk.ofData w.memory ptr
  let size := Chunk.size w.memory chunk
  match Regime.ofSize size with
  | .pooled c =>
      let (result, t, memory) := (h.tables c).put size chunk w.memory
      (result, h.withTable c t, { w with memory })
  | .oversized => h.freeOversized chunk w

/-- A block for a layout. Its bytes are whatever the chunk held before. -/
def allocate (h : Heap) (layout : Layout) (w : Machine π) :
    Except Failure Block × Heap × Machine π :=
  match h.alloc layout.size layout.align w with
  | (.error failure, h, w) => (.error failure, h, w)
  | (.ok ptr, h, w) =>
      match totalSize layout.size layout.align with
      | .error fault => (.error (.fault fault), h, w)
      | .ok total =>
          (.ok ⟨ptr, layout.size, Regime.ofSize total, h.id⟩, h, w)

/-- Like `allocate`, and every byte of the block is zero. -/
def allocateZeroed (h : Heap) (layout : Layout) (w : Machine π) :
    Except Failure Block × Heap × Machine π :=
  match h.allocate layout w with
  | (.error failure, h, w) => (.error failure, h, w)
  | (.ok block, h, w) => (.ok block, h, { w with memory := w.memory.fill block.ptr block.len 0 })

def checkOwner (h : Heap) (block : Block) : Except Fault Unit :=
  if block.owner = h.id then .ok () else .error (.foreignBlock block.ptr)

def deallocate (h : Heap) (block : Block) (w : Machine π) :
    Except Fault Unit × Heap × Machine π :=
  match h.checkOwner block with
  | .error fault => (.error fault, h, w)
  | .ok () => h.free block.ptr w

/-- The size word of a block's chunk, for an oversized chunk the marker. -/
def paddedSize (h : Heap) (block : Block) (m : Memory) : Except Fault Nat := do
  h.checkOwner block
  return Chunk.size m (Chunk.ofData m block.ptr)

/-- The end of a heap. Its regions go back. Oversized chunks that are still
handed out do not. -/
def drop (h : Heap) (w : Machine π) : Machine π :=
  let w := if 0 < h.oversized then w.report (.droppingLiveOversized h.oversized) else w
  (h.regions.releaseAll w).2

end Heap

end ChunkHeap
